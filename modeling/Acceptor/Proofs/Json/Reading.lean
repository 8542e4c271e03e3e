/-
Reading what is written. Main statement: a document whose strings and numbers are literals of texts
and of natural numbers is read back from its text (`read?_text`).
-/
import Acceptor.Json.Reader
import Acceptor.Json.Writer
import Mathlib.Data.List.Basic

namespace Acceptor.Json

variable {c : Char} {cs rest : List Char} {depth fuel n : Nat} {item : Json} {more : List Json}

/-! ## Separators -/

theorem skip_cons (h : isSeparator c = false) (cs : List Char) : skip (c :: cs) = c :: cs := by
  rw [skip, List.dropWhile_cons_of_neg (by simp [h])]

theorem skip_newLine (depth : Nat) (cs : List Char) : skip (newLine depth ++ cs) = skip cs := by
  refine List.dropWhile_append_of_pos fun c hc => ?_
  rcases List.mem_cons.1 hc with rfl | hc
  · rfl
  · rw [List.eq_of_mem_replicate hc]
    rfl

theorem value?_congr {cs' : List Char} (h : skip cs = skip cs') :
    value? fuel cs = value? fuel cs' := by
  cases fuel with
  | zero => rfl
  | succ fuel => simp only [value?, h]

theorem items?_newLine (depth : Nat) (cs : List Char) :
    items? fuel (newLine depth ++ cs) = items? fuel cs := by
  cases fuel with
  | zero => rfl
  | succ fuel => simp only [items?, value?_congr (skip_newLine depth cs)]

theorem members?_newLine (depth : Nat) (cs : List Char) :
    members? fuel (newLine depth ++ cs) = members? fuel cs := by
  cases fuel with
  | zero => rfl
  | succ fuel => simp only [members?, skip_newLine]

/-! ## Strings -/

theorem stringLiteral?_cons (hquote : c ≠ '"') (hslash : c ≠ '\\') (hge : ¬ c.toNat < 0x20) :
    stringLiteral? (c :: cs) = (stringLiteral? cs).map fun s => (c :: s.1, s.2) := by
  rw [stringLiteral?.eq_def]
  split
  · rename_i heq
    cases heq
  · rename_i heq
    exact absurd (List.cons.inj heq).1 hquote
  · rename_i heq
    exact absurd (List.cons.inj heq).1 hslash
  · rename_i heq
    exact absurd (List.cons.inj heq).1 hslash
  · rename_i heq
    obtain ⟨rfl, rfl⟩ := List.cons.inj heq
    rw [if_neg (not_or.2 ⟨hge, hslash⟩)]

theorem stringLiteral?_encodeChar_append (c : Char) (cs : List Char) :
    stringLiteral? (encodeChar c ++ cs) =
      (stringLiteral? cs).map fun s => (encodeChar c ++ s.1, s.2) := by
  unfold encodeChar
  split
  · rename_i letter h
    unfold shortLetter? at h
    split at h <;> cases h <;> simp [stringLiteral?, shortEscape?]
  · rename_i h
    split
    · rename_i hlt
      simp [stringLiteral?, hexValue4?_hexDigit c.toNat hlt]
    · rename_i hge
      have hquote : c ≠ '"' := by
        rintro rfl
        cases h
      have hslash : c ≠ '\\' := by
        rintro rfl
        cases h
      rw [List.singleton_append, stringLiteral?_cons hquote hslash hge]
      rfl

/-- The literal of a text is read up to the quote that closes it. -/
theorem stringLiteral?_encode (text rest : List Char) :
    stringLiteral? (encode text ++ '"' :: rest) = some (encode text, rest) := by
  induction text with
  | nil => rfl
  | cons c text ih =>
    rw [encode, List.flatMap_cons, ← encode, List.append_assoc, stringLiteral?_encodeChar_append,
      ih, Option.map_some]

/-! ## Numbers -/

theorem isDigit_of_mem_digits (h : c ∈ digits n) : c.isDigit = true :=
  Nat.isDigit_of_mem_toDigits (by decide) (by decide) h

theorem exists_digits_eq (n : Nat) : ∃ c cs, digits n = c :: cs ∧ c.isDigit = true := by
  obtain ⟨c, cs, h⟩ := List.exists_cons_of_ne_nil (l := digits n) Nat.toDigits_ne_nil
  have hc : c ∈ digits n := h ▸ List.mem_cons_self
  exact ⟨c, cs, h, isDigit_of_mem_digits hc⟩

/-- Only zero starts with a zero. -/
theorem head?_digits_ne (h : 0 < n) : (digits n).head? ≠ some '0' := by
  induction n using Nat.strongRecOn with
  | ind n ih =>
    have hdigit : ∀ d < 10, 0 < d → ¬ Nat.digitChar d = '0' := by decide
    rw [digits, Nat.toDigits_eq_if (by decide)]
    split
    · rename_i hlt
      simpa using hdigit n hlt h
    · rename_i hge
      have hne : digits (n / 10) ≠ [] := Nat.toDigits_ne_nil
      rw [← digits, List.head?_append_of_ne_nil _ hne]
      exact ih (n / 10) (by omega) (by omega)

/-- What may follow a value: nothing that would make a number longer. -/
def Ends (rest : List Char) : Prop :=
  ∀ c ∈ rest.head?, c.isDigit = false ∧ c ≠ '.' ∧ c ≠ 'e' ∧ c ≠ 'E'

theorem ends_nil : Ends [] := by
  simp [Ends]

theorem ends_newLine (depth : Nat) (cs : List Char) : Ends (newLine depth ++ cs) := by
  simp [Ends, newLine]

theorem ends_comma (cs : List Char) : Ends (',' :: cs) := by
  simp [Ends]

theorem someDigits?_digits (n : Nat) (h : Ends rest) :
    someDigits? (digits n ++ rest) = some (digits n, rest) := by
  have hall : ∀ c ∈ digits n, c.isDigit = true := fun c hc => isDigit_of_mem_digits hc
  have htake : rest.takeWhile Char.isDigit = [] := by
    cases rest with
    | nil => rfl
    | cons c rest => exact List.takeWhile_cons_of_neg (by simp [(h c rfl).1])
  have hdrop : rest.dropWhile Char.isDigit = rest := by
    cases rest with
    | nil => rfl
    | cons c rest => exact List.dropWhile_cons_of_neg (by simp [(h c rfl).1])
  have hne : ¬ (digits n).isEmpty = true := by
    rw [List.isEmpty_iff]
    exact Nat.toDigits_ne_nil
  rw [someDigits?, List.takeWhile_append_of_pos hall, List.dropWhile_append_of_pos hall, htake,
    hdrop, List.append_nil, if_neg hne]

theorem wholeLiteral?_digits (n : Nat) (h : Ends rest) :
    wholeLiteral? (digits n ++ rest) = some (digits n, rest) := by
  rcases Nat.eq_zero_or_pos n with rfl | hn
  · have hnone : rest.head?.any Char.isDigit = false := by
      cases rest with
      | nil => rfl
      | cons c rest => exact (h c rfl).1
    simp [digits, wholeLiteral?, hnone]
  · rw [wholeLiteral?.eq_def]
    split
    · rename_i heq
      have hne : digits n ≠ [] := Nat.toDigits_ne_nil
      have hhead := congrArg List.head? heq
      rw [List.head?_append_of_ne_nil _ hne] at hhead
      exact absurd hhead (head?_digits_ne hn)
    · exact someDigits?_digits n h

/-- A natural number is read up to where its digits end. -/
theorem unsignedLiteral?_digits (n : Nat) (h : Ends rest) :
    unsignedLiteral? (digits n ++ rest) = some (digits n, rest) := by
  have hfraction : fractionLiteral? rest = some ([], rest) := by
    rw [fractionLiteral?.eq_def]
    split
    · exact absurd rfl (h '.' rfl).2.1
    · rfl
  have hexponent : exponentLiteral? rest = some ([], rest) := by
    cases rest with
    | nil => rfl
    | cons c rest => rw [exponentLiteral?, if_neg (by simp [(h c rfl).2.2])]
  rw [unsignedLiteral?, wholeLiteral?_digits n h]
  simp [hfraction, hexponent]

theorem numberLiteral?_of_isDigit (h : c.isDigit = true) :
    numberLiteral? (c :: cs) = unsignedLiteral? (c :: cs) := by
  rw [numberLiteral?.eq_def]
  split
  · rename_i heq
    cases heq
    cases h
  · rfl

theorem isSeparator_of_isDigit (h : c.isDigit = true) : isSeparator c = false := by
  refine Bool.eq_false_iff.2 fun hs => ?_
  simp only [isSeparator, Bool.or_eq_true, decide_eq_true_eq] at hs
  obtain ((rfl | rfl) | rfl) | rfl := hs <;> cases h

theorem value?_of_isDigit (h : c.isDigit = true) :
    value? (fuel + 1) (c :: cs) = (unsignedLiteral? (c :: cs)).map fun s => (.number s.1, s.2) := by
  rw [value?, skip_cons (isSeparator_of_isDigit h)]
  split <;> rename_i heq <;> first | rw [numberLiteral?_of_isDigit h] | (cases heq; cases h)

/-! ## Values -/

/-- A value whose strings are literals of texts and whose numbers are literals of natural
numbers. -/
inductive Written : Json → Prop
  | null : Written .null
  | bool (b : Bool) : Written (.bool b)
  | number (n : Nat) : Written (.number (digits n))
  | string (text : List Char) : Written (.string (encode text))
  | array {items : List Json} : (∀ item ∈ items, Written item) → Written (.array items)
  | object {members : List (List Char × Json)} : (∀ m ∈ members, ∃ text, m.1 = encode text) →
      (∀ m ∈ members, Written m.2) → Written (.object members)

/-- No value starts with a separator or with the bracket that closes an array. -/
theorem Written.exists_write_eq {v : Json} (h : Written v) (depth : Nat) :
    ∃ c cs, write depth v = c :: cs ∧ isSeparator c = false ∧ c ≠ ']' := by
  cases h with
  | null => exact ⟨'n', _, rfl, rfl, by decide⟩
  | bool b =>
    cases b with
    | true => exact ⟨'t', _, rfl, rfl, by decide⟩
    | false => exact ⟨'f', _, rfl, rfl, by decide⟩
  | number n =>
    obtain ⟨c, cs, hcs, hdigit⟩ := exists_digits_eq n
    refine ⟨c, cs, by rw [write, hcs], isSeparator_of_isDigit hdigit, ?_⟩
    rintro rfl
    cases hdigit
  | string text => exact ⟨'"', _, rfl, rfl, by decide⟩
  | @array items _ =>
    cases items with
    | nil => exact ⟨'[', _, rfl, rfl, by decide⟩
    | cons => exact ⟨'[', _, rfl, rfl, by decide⟩
  | @object members _ _ =>
    cases members with
    | nil => exact ⟨'\x7b', _, rfl, rfl, by decide⟩
    | cons => exact ⟨'\x7b', _, rfl, rfl, by decide⟩

theorem value?_bracket (hseparator : isSeparator c = false) (hbracket : c ≠ ']') :
    value? (fuel + 1) ('[' :: (newLine depth ++ c :: cs)) =
      (items? fuel (c :: cs)).map fun s => (.array s.1, s.2) := by
  rw [value?, skip_cons rfl]
  simp only [skip_newLine]
  rw [skip_cons hseparator]
  split
  · rename_i heq
    exact absurd (List.cons.inj heq).1 hbracket
  · rfl

theorem value?_brace (hseparator : isSeparator c = false) (hbrace : c ≠ '\x7d') :
    value? (fuel + 1) ('\x7b' :: (newLine depth ++ c :: cs)) =
      (members? fuel (c :: cs)).map fun s => (.object s.1, s.2) := by
  rw [value?, skip_cons rfl]
  simp only [skip_newLine]
  rw [skip_cons hseparator]
  split
  · rename_i heq
    exact absurd (List.cons.inj heq).1 hbrace
  · rfl

/-- A value is read from its text and no further, with one step of fuel for each character. -/
def ReadsBack (v : Json) : Prop :=
  ∀ (depth fuel : Nat) (rest : List Char), (write depth v).length ≤ fuel → Ends rest →
    value? fuel (write depth v ++ rest) = some (v, rest)

theorem readsBack_of_succ {v : Json} (h : Written v)
    (hread : ∀ (depth fuel : Nat) (rest : List Char), (write depth v).length ≤ fuel + 1 →
      Ends rest → value? (fuel + 1) (write depth v ++ rest) = some (v, rest)) : ReadsBack v := by
  intro depth fuel rest hfuel hrest
  obtain ⟨c, cs, hcs, -⟩ := h.exists_write_eq depth
  cases fuel with
  | zero =>
    rw [hcs] at hfuel
    cases hfuel
  | succ fuel => exact hread depth fuel rest hfuel hrest

/-- Items are read up to the bracket that closes them. -/
theorem items?_write (depth outer : Nat) (hitem : ReadsBack item)
    (hmore : ∀ item ∈ more, ReadsBack item) (rest : List Char)
    (hfuel : (write depth item).length + (writeItems depth more).length < fuel) :
    items? fuel (write depth item ++ (writeItems depth more ++ (newLine outer ++ ']' :: rest))) =
      some (item :: more, rest) := by
  -- a further item takes one more step, and more than one character stands before it
  induction more generalizing item fuel with
  | nil =>
    obtain ⟨fuel, rfl⟩ := Nat.exists_eq_add_one.2 (Nat.zero_lt_of_lt hfuel)
    have hread := hitem depth fuel (newLine outer ++ ']' :: rest)
      (by omega) (ends_newLine outer _)
    rw [writeItems, List.nil_append, items?, hread]
    simp only [Option.bind_eq_bind, Option.bind_some, skip_newLine]
    rw [skip_cons rfl]
    rfl
  | cons next more ih =>
    obtain ⟨hnext, hmore⟩ := List.forall_mem_cons.1 hmore
    obtain ⟨fuel, rfl⟩ := Nat.exists_eq_add_one.2 (Nat.zero_lt_of_lt hfuel)
    simp only [writeItems, List.cons_append, List.append_assoc, List.length_cons,
      List.length_append] at hfuel ⊢
    have hread := hitem depth fuel (',' :: (newLine depth ++ (write depth next ++
      (writeItems depth more ++ (newLine outer ++ ']' :: rest))))) (by omega) (ends_comma _)
    rw [items?, hread]
    simp only [Option.bind_eq_bind, Option.bind_some]
    rw [skip_cons rfl]
    simp only [items?_newLine]
    rw [ih hnext hmore (by omega)]
    rfl

theorem exists_writeMember_eq (depth : Nat) (member : List Char × Json) :
    ∃ cs, writeMember depth member = '"' :: cs := by
  obtain ⟨key, value⟩ := member
  exact ⟨_, rfl⟩

/-- A member is read with its value. -/
theorem members?_writeMember {member : List Char × Json} (hkey : ∃ text, member.1 = encode text)
    (hvalue : ReadsBack member.2) (hfuel : (writeMember depth member).length ≤ fuel)
    (hrest : Ends rest) : members? (fuel + 1) (writeMember depth member ++ rest) =
      match skip rest with
      | '\x7d' :: rest => some ([member], rest)
      | ',' :: rest => do
        let (more, rest) ← members? fuel rest
        return (member :: more, rest)
      | _ => none := by
  obtain ⟨key, value⟩ := member
  obtain ⟨text, rfl⟩ := hkey
  have hspace : value? fuel (' ' :: (write depth value ++ rest)) = some (value, rest) := by
    rw [writeMember, List.length_append] at hfuel
    rw [← hvalue depth fuel rest (Nat.le_trans (Nat.le_add_left _ _) hfuel) hrest]
    exact value?_congr rfl
  simp only [writeMember, quoted, List.cons_append, List.append_assoc, List.nil_append, members?]
  rw [skip_cons rfl]
  simp only [after?, if_true, Option.bind_eq_bind, Option.bind_some, stringLiteral?_encode]
  rw [skip_cons rfl]
  simp only [after?, if_true, Option.bind_some, hspace]
  rfl

/-- Members are read up to the brace that closes them. -/
theorem members?_write (depth outer : Nat) {member : List Char × Json}
    {more : List (List Char × Json)} (hkey : ∃ text, member.1 = encode text)
    (hvalue : ReadsBack member.2) (hkeys : ∀ m ∈ more, ∃ text, m.1 = encode text)
    (hvalues : ∀ m ∈ more, ReadsBack m.2) (rest : List Char)
    (hfuel : (writeMember depth member).length + (writeMembers depth more).length < fuel) :
    members? fuel (writeMember depth member ++
      (writeMembers depth more ++ (newLine outer ++ '\x7d' :: rest))) =
      some (member :: more, rest) := by
  induction more generalizing member fuel with
  | nil =>
    obtain ⟨fuel, rfl⟩ := Nat.exists_eq_add_one.2 (Nat.zero_lt_of_lt hfuel)
    rw [writeMembers, List.nil_append,
      members?_writeMember hkey hvalue (by omega) (ends_newLine outer _), skip_newLine]
    rfl
  | cons next more ih =>
    obtain ⟨hkey', hkeys⟩ := List.forall_mem_cons.1 hkeys
    obtain ⟨hvalue', hvalues⟩ := List.forall_mem_cons.1 hvalues
    obtain ⟨fuel, rfl⟩ := Nat.exists_eq_add_one.2 (Nat.zero_lt_of_lt hfuel)
    simp only [writeMembers, List.cons_append, List.append_assoc, List.length_cons,
      List.length_append] at hfuel ⊢
    rw [members?_writeMember hkey hvalue (by omega) (ends_comma _), skip_cons rfl]
    simp only [members?_newLine]
    rw [ih hkey' hvalue' hkeys hvalues (by omega)]
    rfl

theorem Written.readsBack {v : Json} (h : Written v) : ReadsBack v := by
  induction h with
  | null => exact readsBack_of_succ .null fun _ _ _ _ _ => rfl
  | bool b => exact readsBack_of_succ (.bool b) fun _ _ _ _ _ => by cases b <;> rfl
  | number n =>
    refine readsBack_of_succ (.number n) fun depth fuel rest _ hrest => ?_
    obtain ⟨c, cs, hcs, hdigit⟩ := exists_digits_eq n
    have hread := unsignedLiteral?_digits n hrest
    rw [hcs, List.cons_append] at hread
    rw [write, hcs, List.cons_append, value?_of_isDigit hdigit, hread]
    rfl
  | string text =>
    refine readsBack_of_succ (.string text) fun depth fuel rest _ _ => ?_
    rw [write, quoted, List.append_assoc, List.cons_append, value?, skip_cons rfl]
    simp only [List.singleton_append, stringLiteral?_encode, Option.map_some]
  | @array items hitems ih =>
    refine readsBack_of_succ (.array hitems) fun depth fuel rest hfuel _ => ?_
    cases items with
    | nil => rfl
    | cons item more =>
      obtain ⟨hitem, hmore⟩ := List.forall_mem_cons.1 ih
      obtain ⟨c, cs, hcs, hseparator, hbracket⟩ :=
        (hitems item List.mem_cons_self).exists_write_eq (depth + 1)
      simp only [write, List.cons_append, List.append_assoc, List.nil_append, List.length_cons,
        List.length_append] at hfuel ⊢
      have hread : items? fuel _ = _ :=
        items?_write (depth + 1) depth hitem hmore rest (by omega)
      rw [hcs, List.cons_append] at hread ⊢
      rw [value?_bracket hseparator hbracket, hread]
      rfl
  | @object members hkeys hvalues ih =>
    refine readsBack_of_succ (.object hkeys hvalues) fun depth fuel rest hfuel _ => ?_
    cases members with
    | nil => rfl
    | cons member more =>
      obtain ⟨hkey, hkeys⟩ := List.forall_mem_cons.1 hkeys
      obtain ⟨hvalue, hvalues⟩ := List.forall_mem_cons.1 ih
      simp only [write, List.cons_append, List.append_assoc, List.nil_append, List.length_cons,
        List.length_append] at hfuel ⊢
      have hread : members? fuel _ = _ :=
        members?_write (depth + 1) depth hkey hvalue hkeys hvalues rest (by omega)
      obtain ⟨cs, hcs⟩ := exists_writeMember_eq (depth + 1) member
      rw [hcs, List.cons_append] at hread ⊢
      rw [value?_brace rfl (by decide), hread]
      rfl

/-- A document is read back from its text. -/
theorem read?_text {v : Json} (h : Written v) : read? (text v) = some v := by
  have hread := h.readsBack 0 (2 * (write 0 v).length + 2) [] (by omega) ends_nil
  rw [List.append_nil] at hread
  simp only [read?, text, String.toList_ofList, hread, Option.bind_eq_bind, Option.bind_some]
  rfl

end Acceptor.Json
