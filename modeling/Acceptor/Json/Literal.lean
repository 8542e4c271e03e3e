/-
Strings and numbers as JSON literals. Main statement: a text reads back from its literal
(`decode?_encode`).
-/

namespace Acceptor.Json

/-! ## Strings -/

/-- The digit of a number below 16, in lower case. -/
def hexDigit (n : Nat) : Char :=
  Nat.digitChar n

/-- The value of a hexadecimal digit of either case. -/
def hexValue? (c : Char) : Option Nat :=
  if '0' ≤ c ∧ c ≤ '9' then some (c.toNat - '0'.toNat)
  else if 'a' ≤ c ∧ c ≤ 'f' then some (c.toNat - 'a'.toNat + 10)
  else if 'A' ≤ c ∧ c ≤ 'F' then some (c.toNat - 'A'.toNat + 10)
  else none

/-- The value of four hexadecimal digits. -/
def hexValue4? (a b c d : Char) : Option Nat := do
  return (((← hexValue? a) * 16 + (← hexValue? b)) * 16 + (← hexValue? c)) * 16 + (← hexValue? d)

/-- The character that a backslash and a letter stand for. -/
def shortEscape? : Char → Option Char
  | '"' => some '"'
  | '\\' => some '\\'
  | '/' => some '/'
  | 'b' => some '\x08'
  | 'f' => some '\x0c'
  | 'n' => some '\n'
  | 'r' => some '\r'
  | 't' => some '\t'
  | _ => none

/-- The letter that stands for a character after a backslash. A slash needs no escape. -/
def shortLetter? : Char → Option Char
  | '"' => some '"'
  | '\\' => some '\\'
  | '\x08' => some 'b'
  | '\x0c' => some 'f'
  | '\n' => some 'n'
  | '\r' => some 'r'
  | '\t' => some 't'
  | _ => none

/-- A character in a literal: quotes, backslashes and control characters are escaped, by a letter
where there is one. -/
def encodeChar (c : Char) : List Char :=
  match shortLetter? c with
  | some letter => ['\\', letter]
  | none =>
    if c.toNat < 0x20 then
      ['\\', 'u', '0', '0', hexDigit (c.toNat / 16), hexDigit (c.toNat % 16)]
    else [c]

/-- The literal of a text. -/
def encode (text : List Char) : List Char :=
  text.flatMap encodeChar

/-- The character of a code unit, unless it is half of a surrogate pair. -/
def unitChar? (unit : Nat) : Option Char :=
  if 0xD800 ≤ unit ∧ unit ≤ 0xDFFF then none else some (Char.ofNat unit)

/-- The character of a surrogate pair. -/
def pairChar? (high low : Nat) : Option Char :=
  if 0xD800 ≤ high ∧ high ≤ 0xDBFF ∧ 0xDC00 ≤ low ∧ low ≤ 0xDFFF then
    some (Char.ofNat (0x10000 + (high - 0xD800) * 0x400 + (low - 0xDC00)))
  else none

/-- The character that an escape stands for, given what follows the backslash, and what follows
the escape. A surrogate must be followed by the escape of its other half. -/
def decodeEscape? : List Char → Option (Char × List Char)
  | 'u' :: a :: b :: c :: d :: rest => do
    let unit ← hexValue4? a b c d
    match unitChar? unit, rest with
    | some char, _ => return (char, rest)
    | none, '\\' :: 'u' :: a' :: b' :: c' :: d' :: rest' =>
      let low ← hexValue4? a' b' c' d'
      return (← pairChar? unit low, rest')
    | none, _ => none
  | c :: rest => (shortEscape? c).map (·, rest)
  | [] => none

theorem length_lt_of_decodeEscape? {cs rest : List Char} {c : Char}
    (h : decodeEscape? cs = some (c, rest)) : rest.length < cs.length := by
  unfold decodeEscape? at h
  split at h
  · obtain ⟨unit, -, h⟩ := Option.bind_eq_some_iff.1 h
    split at h
    · cases h
      simp only [List.length_cons]
      omega
    · obtain ⟨low, -, h⟩ := Option.bind_eq_some_iff.1 h
      obtain ⟨char, -, h⟩ := Option.bind_eq_some_iff.1 h
      cases h
      simp only [List.length_cons]
      omega
    · cases h
  · obtain ⟨char, -, h⟩ := Option.map_eq_some_iff.1 h
    cases h
    simp
  · cases h

/-- The text of a literal. Without one are the literals with an unpaired surrogate. -/
def decode? (literal : List Char) : Option (List Char) :=
  match literal with
  | [] => some []
  | '\\' :: rest =>
    match _h : decodeEscape? rest with
    | some (c, after) => (decode? after).map (c :: ·)
    | none => none
  | c :: rest => (decode? rest).map (c :: ·)
termination_by literal.length
decreasing_by
  · have := length_lt_of_decodeEscape? _h
    simp only [List.length_cons]
    omega
  · simp

theorem hexValue4?_hexDigit :
    ∀ n < 0x20, hexValue4? '0' '0' (hexDigit (n / 16)) (hexDigit (n % 16)) = some n := by
  decide

theorem decodeEscape?_shortLetter {c letter : Char} (h : shortLetter? c = some letter)
    (rest : List Char) : decodeEscape? (letter :: rest) = some (c, rest) := by
  unfold shortLetter? at h
  split at h <;> cases h <;> rfl

theorem decodeEscape?_control {c : Char} (h : c.toNat < 0x20) (rest : List Char) :
    decodeEscape? ('u' :: '0' :: '0' :: hexDigit (c.toNat / 16) :: hexDigit (c.toNat % 16) :: rest)
      = some (c, rest) := by
  have hunit : unitChar? c.toNat = some c := by
    rw [unitChar?, if_neg (by omega), Char.ofNat_toNat]
  simp [decodeEscape?, hexValue4?_hexDigit c.toNat h, hunit]

theorem decode?_cons {c : Char} (h : c ≠ '\\') (rest : List Char) :
    decode? (c :: rest) = (decode? rest).map (c :: ·) := by
  rw [decode?.eq_def]
  split
  · contradiction
  · rename_i heq
    exact absurd (List.cons.inj heq).1 h
  · rename_i heq
    obtain ⟨rfl, rfl⟩ := List.cons.inj heq
    rfl

theorem decode?_escape {c : Char} {cs rest : List Char} (h : decodeEscape? cs = some (c, rest)) :
    decode? ('\\' :: cs) = (decode? rest).map (c :: ·) := by
  rw [decode?]
  split <;> simp_all

theorem decode?_encodeChar_append (c : Char) (rest : List Char) :
    decode? (encodeChar c ++ rest) = (decode? rest).map (c :: ·) := by
  unfold encodeChar
  split
  · rename_i letter h
    exact decode?_escape (decodeEscape?_shortLetter h rest)
  · rename_i h
    split
    · rename_i hlt
      exact decode?_escape (decodeEscape?_control hlt rest)
    · refine decode?_cons (fun hc => ?_) rest
      subst hc
      cases h

/-- A text reads back from its literal. -/
theorem decode?_encode (text : List Char) : decode? (encode text) = some text := by
  induction text with
  | nil => simp [encode, decode?]
  | cons c rest ih =>
    rw [encode, List.flatMap_cons, ← encode, decode?_encodeChar_append, ih, Option.map_some]

/-! ## Numbers -/

/-- The literal of a natural number. -/
def digits (n : Nat) : List Char :=
  Nat.toDigits 10 n

/-- The value of a number that is written as a natural number below `2 ^ 64`, without sign,
fraction or exponent. -/
def natural? (literal : List Char) : Option Nat :=
  if literal.all Char.isDigit then
    let value := literal.foldl (fun n c => 10 * n + (c.toNat - '0'.toNat)) 0
    if value < UInt64.size then some value else none
  else none

end Acceptor.Json
