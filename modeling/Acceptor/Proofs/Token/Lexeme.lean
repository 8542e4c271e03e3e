/-
Lexemes: how each token is written, and which texts start with no lexeme. Main statements: a lexer
yields a token at its lexeme (`tokens_lexeme`) and fails at a text that starts with none
(`tokens_malformed`), every text that starts with no blank starts with a lexeme or with none for
some reason (`starts_cons`), and a text starts with one lexeme at most (`Lexeme.unique`).
-/
import Acceptor.Proofs.Label.Text
import Acceptor.Proofs.Pattern.Nesting
import Acceptor.Token.Lexer
import Mathlib.Data.List.TakeWhile

namespace Acceptor

open Text

/-- The signs of the expression language: grouping, operators, and what an atom in more than one
character starts with. -/
def signs : List Char := ['(', ')', '+', '*', '^', '.', '[', '{']

/-- A label that an expression can write. -/
def Label.Lexical : Label → Prop
  | epsilon => True
  | any => True
  | literal c => isAlphanumeric c = true ∧ c ≠ epsilonChar
  | range lo hi => lo ≤ hi ∧ lo ≠ ']' ∧ hi ≠ ']'
  | oneOf cs => cs ≠ [] ∧ '}' ∉ cs
  | noneOf _ => False

/-- The characters are a lexeme of the token where `after` follows them: its text, or the word for
the atom that reads nothing. No literal is read where that word starts. -/
structure Token.Lexeme (t : Token) (cs after : List Char) : Prop where
  spelled : cs = t.chars ∨ t = .atom .epsilon ∧ cs = Label.epsilonWord
  keyword : t = .atom (.literal 'e') → ¬ Label.epsilonWord <+: cs ++ after
  lexical : ∀ l, t = .atom l → l.Lexical

/-- The groups that are open after a token at a position, innermost first; there is no answer for a
`)` that closes none. -/
def Token.opened? (position : Nat) : Token → List Nat → Option (List Nat)
  | .groupOpen, opened => some (position :: opened)
  | .groupClose, [] => none
  | .groupClose, _ :: outer => some outer
  | _, opened => some opened

/-- The text starts with no lexeme at the position, for the reason that the fault names. -/
inductive Malformed (position : Nat) : List Char → SyntaxError → Prop
  /-- No lexeme starts with the character. -/
  | unexpectedChar {c : Char} {after : List Char} (blank : isBlank c = false)
      (alphanumeric : isAlphanumeric c = false) (sign : c ∉ signs) :
      Malformed position (c :: after) (.unexpectedChar c position)
  /-- No `]` follows the `[`. -/
  | unclosedRange {after : List Char} (h : ']' ∉ after) :
      Malformed position ('[' :: after) (.unclosedRange position)
  /-- What stands up to the first `]` is not `[x-y]` with `x ≤ y`. -/
  | invalidRange {inner after : List Char} (first : ']' ∉ inner)
      (range : ∀ lo hi, lo ≤ hi → inner ≠ [lo, '-', hi]) :
      Malformed position ('[' :: (inner ++ ']' :: after))
        (.invalidRange (String.ofList ('[' :: inner ++ [']'])) position)
  /-- No closing brace follows the opening one. -/
  | unclosedSet {after : List Char} (h : '}' ∉ after) :
      Malformed position ('{' :: after) (.unclosedSet position)
  /-- There is nothing between the braces. -/
  | emptySet {after : List Char} : Malformed position ('{' :: '}' :: after) (.emptySet position)

/-- How many characters a call takes that ends in a fault: a bracket that is closed, else none. -/
def SyntaxError.width : SyntaxError → Nat
  | invalidRange text _ => text.length
  | emptySet _ => 2
  | _ => 0

theorem SyntaxError.width_invalidRange (inner : List Char) (position : Nat) :
    (invalidRange (String.ofList ('[' :: inner ++ [']'])) position).width = inner.length + 2 := by
  rw [width, String.length_ofList]
  simp

/-! ## Labels that are written -/

theorem Label.Lexical.wellFormed {l : Label} (h : l.Lexical) : l.WellFormed := by
  cases l with
  | epsilon => trivial
  | any => trivial
  | literal c =>
    refine ⟨?_, h.2⟩
    rintro rfl
    exact absurd h.1 (by decide +kernel)
  | range lo hi => exact h.1
  | oneOf cs => exact h.1
  | noneOf is => exact h.elim

/-- No sign is alphanumeric or blank. -/
theorem not_alphanumeric_of_mem_signs :
    ∀ c ∈ signs, isAlphanumeric c = false ∧ isBlank c = false := by
  have hall : signs.all (fun c => !isAlphanumeric c && !isBlank c) = true := by decide +kernel
  intro c hc
  simpa using List.all_eq_true.1 hall c hc

theorem not_mem_signs_of_isAlphanumeric {c : Char} (h : isAlphanumeric c = true) : c ∉ signs := by
  intro hc
  rw [(not_alphanumeric_of_mem_signs c hc).1] at h
  cases h

namespace Token

variable {t : Token} {cs after : List Char} {position : Nat} {opened outer : List Nat}

/-- A token that has a depth finds its groups on the stack, above others that it leaves alone. -/
theorem exists_opened? {depth : Nat} (h : t.depth? opened.length = some depth) (position : Nat)
    (base : List Nat) :
    ∃ o, o.length = depth ∧ t.opened? position (opened ++ base) = some (o ++ base) := by
  cases t with
  | groupClose =>
    cases opened with
    | nil => cases h
    | cons i outer => cases h; exact ⟨outer, rfl, rfl⟩
  | groupOpen => cases h; exact ⟨position :: opened, rfl, rfl⟩
  | union => cases h; exact ⟨opened, rfl, rfl⟩
  | repetition => cases h; exact ⟨opened, rfl, rfl⟩
  | atom => cases h; exact ⟨opened, rfl, rfl⟩

theorem opened?_eq_none_iff : t.opened? position opened = none ↔ t = .groupClose ∧ opened = [] := by
  cases t with
  | groupClose => cases opened <;> simp [opened?]
  | groupOpen => simp [opened?]
  | union => simp [opened?]
  | repetition => simp [opened?]
  | atom => simp [opened?]

/-- A lexeme starts with a character that is not blank. -/
theorem Lexeme.exists_cons (h : t.Lexeme cs after) :
    ∃ c rest, cs = c :: rest ∧ isBlank c = false := by
  have hsign : ∀ c ∈ signs, isBlank c = false := fun c hc => (not_alphanumeric_of_mem_signs c hc).2
  rcases h.spelled with rfl | ⟨-, rfl⟩
  · cases t with
    | groupOpen => exact ⟨_, _, rfl, hsign _ (by decide)⟩
    | groupClose => exact ⟨_, _, rfl, hsign _ (by decide)⟩
    | union => exact ⟨_, _, rfl, hsign _ (by decide)⟩
    | repetition r => cases r <;> exact ⟨_, _, rfl, hsign _ (by decide)⟩
    | atom l =>
      have hl := h.lexical l rfl
      cases l with
      | epsilon => exact ⟨_, _, rfl, by decide⟩
      | any => exact ⟨_, _, rfl, hsign _ (by decide)⟩
      | literal c => exact ⟨_, _, rfl, not_isBlank_of_isAlphanumeric hl.1⟩
      | range => exact ⟨_, _, rfl, hsign _ (by decide)⟩
      | oneOf => exact ⟨_, _, rfl, hsign _ (by decide)⟩
      | noneOf => exact hl.elim
  · exact ⟨_, _, rfl, by decide⟩

/-- Only the atom that reads nothing has a lexeme that is not its text. -/
theorem Lexeme.eq_chars (h : t.Lexeme cs after) (ht : t ≠ .atom .epsilon) : cs = t.chars :=
  h.spelled.resolve_right fun hword => ht hword.1

end Token

namespace Lexer

variable {t : Token} {c : Char} {cs rest after : List Char}
variable {position : Nat} {opened outer : List Nat}

/-! ## One call -/

theorem next_blank (h : isBlank c = true) :
    next ⟨c :: rest, position, opened⟩ = next ⟨rest, position + 1, opened⟩ := by
  have hskip : skipBlanks ⟨c :: rest, position, opened⟩ =
      skipBlanks ⟨rest, position + 1, opened⟩ := by
    simp [skipBlanks, advance, h, Nat.add_assoc, Nat.add_comm 1]
  rw [next, next, hskip]

theorem next_cons (h : isBlank c = false) :
    next ⟨c :: rest, position, opened⟩ = lexeme ⟨c :: rest, position, opened⟩ c := by
  simp [next, skipBlanks, advance, h]

theorem lexeme_of_not_mem_signs (l : Lexer) (h : c ∉ signs) : l.lexeme c =
    if c = Label.epsilonChar then l.yield (.atom .epsilon) 1
    else if Label.epsilonWord.isPrefixOf l.rest then
      l.yield (.atom .epsilon) Label.epsilonWord.length
    else if isAlphanumeric c then l.yield (.atom (.literal c)) 1
    else (.error (.unexpectedChar c l.position), l) := by
  unfold lexeme
  split
  all_goals first | rfl | exact absurd (by decide) h

/-- The text in brackets ends at the first closing character. -/
theorem bracketed?_append {close : Char} {inner : List Char} (h : close ∉ inner)
    (after : List Char) (position : Nat) (opened : List Nat) :
    bracketed? close ⟨inner ++ close :: after, position, opened⟩ = some (inner ++ [close]) := by
  have hall : ∀ x ∈ inner, decide (x ≠ close) = true :=
    fun x hx => decide_eq_true (ne_of_mem_of_not_mem hx h)
  have htake : (inner ++ close :: after).takeWhile (· ≠ close) = inner := by
    rw [List.takeWhile_append_of_pos hall]
    simp
  simp only [bracketed?, htake]
  simp

theorem bracketed?_eq_none {close : Char} (h : close ∉ cs) (position : Nat) (opened : List Nat) :
    bracketed? close ⟨cs, position, opened⟩ = none := by
  have htake : cs.takeWhile (· ≠ close) = cs :=
    List.takeWhile_eq_self_iff.2 fun x hx => decide_eq_true (ne_of_mem_of_not_mem hx h)
  simp only [bracketed?, htake]
  simp

/-- A text in square brackets reads as a range only where it is one. -/
theorem of_read?_eq_range {inner : List Char} {lo hi : Char}
    (h : Label.read? ('[' :: inner ++ [']']) = some (.range lo hi)) :
    lo ≤ hi ∧ inner = [lo, '-', hi] := by
  obtain ⟨hle, hchars | ⟨hlabel, -⟩⟩ := Label.of_read?_eq_some h
  · exact ⟨hle, List.append_cancel_right (List.cons.inj hchars).2⟩
  · cases hlabel

theorem readRange_range {lo hi : Char} (hle : lo ≤ hi) (hlo : lo ≠ ']') (hhi : hi ≠ ']') :
    readRange ⟨'[' :: lo :: '-' :: hi :: ']' :: after, position, opened⟩ =
      (.ok (some (.atom (.range lo hi))), ⟨after, position + 5, opened⟩) := by
  have hclose : ']' ∉ ['[', lo, '-', hi] := by simp [hlo.symm, hhi.symm]
  have hbracket := bracketed?_append hclose after position opened
  have hread : Label.read? ['[', lo, '-', hi, ']'] = some (.range lo hi) :=
    Label.read?_chars (l := .range lo hi) hle
  simp only [List.cons_append, List.nil_append] at hbracket
  simp only [readRange, hbracket, hread]
  rfl

theorem readRange_invalid {inner : List Char} (h : ']' ∉ inner)
    (hrange : ∀ lo hi, lo ≤ hi → inner ≠ [lo, '-', hi]) :
    readRange ⟨'[' :: (inner ++ ']' :: after), position, opened⟩ =
      (.error (.invalidRange (String.ofList ('[' :: inner ++ [']'])) position),
        ⟨after, position + (inner.length + 2), opened⟩) := by
  have hclose : ']' ∉ '[' :: inner := by simpa using h
  have hbracket := bracketed?_append hclose after position opened
  rw [List.cons_append] at hbracket
  simp only [readRange, hbracket]
  split
  · rename_i lo hi hread
    obtain ⟨hle, rfl⟩ := of_read?_eq_range hread
    exact absurd rfl (hrange lo hi hle)
  · simp [advance]

theorem readSet_append {inner : List Char} (h : '}' ∉ inner) (after : List Char) (position : Nat)
    (opened : List Nat) : readSet ⟨'{' :: (inner ++ '}' :: after), position, opened⟩ =
      (if inner = [] then .error (.emptySet position) else .ok (some (.atom (.oneOf inner))),
        ⟨after, position + (inner.length + 2), opened⟩) := by
  have hclose : '}' ∉ '{' :: inner := by simpa using h
  have hbracket := bracketed?_append hclose after position opened
  rw [List.cons_append] at hbracket
  simp only [readSet, hbracket]
  split <;> simp_all [advance]

theorem lexeme_word {l : Lexer} (h : Label.epsilonWord <+: l.rest) :
    l.lexeme 'e' = l.yield (.atom .epsilon) Label.epsilonWord.length := by
  rw [lexeme_of_not_mem_signs l (by decide), if_neg (by decide),
    if_pos (List.isPrefixOf_iff_prefix.2 h)]

theorem lexeme_literal {l : Lexer} (hc : (Label.literal c).Lexical)
    (h : ¬ Label.epsilonWord <+: l.rest) : l.lexeme c = l.yield (.atom (.literal c)) 1 := by
  rw [lexeme_of_not_mem_signs l (not_mem_signs_of_isAlphanumeric hc.1), if_neg hc.2,
    if_neg fun hp => h (List.isPrefixOf_iff_prefix.1 hp), if_pos hc.1]

/-- A lexer reads the text of a label that is written as its atom, unless the word starts there. -/
theorem lexeme_atom {l : Label} (hl : l.Lexical) (hcs : l.chars = c :: rest)
    (hword : l = .literal 'e' → ¬ Label.epsilonWord <+: l.chars ++ after) :
    lexeme ⟨l.chars ++ after, position, opened⟩ c =
      (.ok (some (.atom l)), ⟨after, position + l.chars.length, opened⟩) := by
  cases l with
  | epsilon => cases hcs; rfl
  | any => cases hcs; rfl
  | literal d =>
    cases hcs
    refine lexeme_literal hl fun hp => ?_
    obtain ⟨tail, htail⟩ := hp
    obtain rfl : 'e' = c := (List.cons.inj htail).1
    exact hword rfl ⟨tail, htail⟩
  | range lo hi =>
    cases hcs
    exact readRange_range hl.1 hl.2.1 hl.2.2
  | oneOf members =>
    cases hcs
    have hset := readSet_append hl.2 after position opened
    rw [if_neg hl.1] at hset
    change readSet ⟨'{' :: (members ++ ['}']) ++ after, position, opened⟩ = _
    rw [List.cons_append, List.append_assoc]
    refine hset.trans ?_
    simp [Label.chars]
  | noneOf => exact hl.elim

/-- A lexer reads a lexeme of a token as the token. -/
theorem next_lexeme (h : t.Lexeme cs after) (ho : t.opened? position opened = some outer) :
    next ⟨cs ++ after, position, opened⟩ =
      (.ok (some t), ⟨after, position + cs.length, outer⟩) := by
  obtain ⟨c, rest, hcs, hc⟩ := h.exists_cons
  rw [hcs, List.cons_append, next_cons hc, ← List.cons_append, ← hcs]
  rcases h.spelled with rfl | ⟨rfl, rfl⟩
  · cases t with
    | groupOpen =>
      cases hcs
      cases ho
      rfl
    | groupClose =>
      cases hcs
      cases opened with
      | nil => cases ho
      | cons => cases ho; rfl
    | union =>
      cases hcs
      cases ho
      rfl
    | repetition r =>
      cases ho
      cases r <;> cases hcs <;> rfl
    | atom l =>
      cases ho
      exact lexeme_atom (h.lexical l rfl) hcs fun he => h.keyword (congrArg Token.atom he)
  · cases hcs
    cases ho
    exact lexeme_word (List.prefix_append _ _)

/-- Where no lexeme starts, a lexer fails and says why. It stays there, or goes behind the bracket
that it took. -/
theorem next_malformed {fault : SyntaxError} (h : Malformed position cs fault) :
    next ⟨cs, position, opened⟩ =
      (.error fault, advance ⟨cs, position, opened⟩ fault.width) := by
  cases h with
  | @unexpectedChar c after blank alphanumeric sign =>
    have hword : ¬ Label.epsilonWord <+: c :: after := by
      rintro ⟨tail, htail⟩
      obtain rfl : 'e' = c := (List.cons.inj htail).1
      exact absurd alphanumeric (by decide +kernel)
    have heps : c ≠ Label.epsilonChar := by
      rintro rfl
      exact absurd alphanumeric (by decide +kernel)
    rw [next_cons blank, lexeme_of_not_mem_signs _ sign, if_neg heps,
      if_neg fun hp => hword (List.isPrefixOf_iff_prefix.1 hp), if_neg (by simp [alphanumeric])]
    rfl
  | @unclosedRange after h =>
    have hclose : ']' ∉ '[' :: after := by simpa using h
    have hnone := bracketed?_eq_none hclose position opened
    rw [next_cons (by decide)]
    simp only [lexeme, readRange, hnone]
    rfl
  | invalidRange first range =>
    rw [next_cons (by decide), SyntaxError.width_invalidRange]
    refine (readRange_invalid first range).trans ?_
    simp [advance]
  | @unclosedSet after h =>
    have hclose : '}' ∉ '{' :: after := by simpa using h
    have hnone := bracketed?_eq_none hclose position opened
    rw [next_cons (by decide)]
    simp only [lexeme, readSet, hnone]
    rfl
  | @emptySet after =>
    have hnone : '}' ∉ ([] : List Char) := List.not_mem_nil
    rw [next_cons (by decide)]
    exact readSet_append hnone after position opened

/-- A `)` where no group is open is a fault, at which a lexer stays. -/
theorem next_unmatched : next ⟨')' :: rest, position, []⟩ =
    (.error (.unmatchedParen position), ⟨')' :: rest, position, []⟩) := by
  rw [next_cons (by decide)]
  rfl

/-! ## All tokens -/

theorem tokens_of_next_eq_error {l : Lexer} {fault : SyntaxError} (h : l.next.1 = .error fault) :
    l.tokens = .error fault := by
  rw [tokens]
  split <;> simp_all

theorem tokens_of_next_eq_ok {l l' : Lexer} (h : l.next = (.ok (some t), l')) :
    l.tokens = l'.tokens.map (t :: ·) := by
  rw [tokens]
  split <;> simp_all

theorem tokens_of_next_eq_end {l : Lexer} (h : l.next.1 = .ok none) : l.tokens = .ok [] := by
  rw [tokens]
  split <;> simp_all

theorem tokens_congr {l l' : Lexer} (h : l.next = l'.next) : l.tokens = l'.tokens := by
  match hl : l.next, h with
  | (.error fault, m), h =>
    rw [tokens_of_next_eq_error (congrArg Prod.fst hl),
      tokens_of_next_eq_error (congrArg Prod.fst h.symm)]
  | (.ok none, m), h =>
    rw [tokens_of_next_eq_end (congrArg Prod.fst hl),
      tokens_of_next_eq_end (congrArg Prod.fst h.symm)]
  | (.ok (some t), m), h => rw [tokens_of_next_eq_ok hl, tokens_of_next_eq_ok h.symm]

theorem tokens_blank (h : isBlank c = true) :
    tokens ⟨c :: rest, position, opened⟩ = tokens ⟨rest, position + 1, opened⟩ :=
  tokens_congr (next_blank h)

theorem tokens_lexeme (h : t.Lexeme cs after) (ho : t.opened? position opened = some outer) :
    tokens ⟨cs ++ after, position, opened⟩ =
      (tokens ⟨after, position + cs.length, outer⟩).map (t :: ·) :=
  tokens_of_next_eq_ok (next_lexeme h ho)

theorem tokens_malformed {fault : SyntaxError} (h : Malformed position cs fault) :
    tokens ⟨cs, position, opened⟩ = .error fault :=
  tokens_of_next_eq_error (congrArg Prod.fst (next_malformed h))

end Lexer

/-! ## Every text -/

namespace Token

variable {t : Token} {c : Char} {after : List Char}

/-- The text starts with a lexeme. -/
def StartsLexeme (text : List Char) : Prop :=
  ∃ (t : Token) (cs after : List Char), text = cs ++ after ∧ t.Lexeme cs after

/-- The text starts with no lexeme, wherever it stands. -/
def StartsNone (text : List Char) : Prop :=
  ∀ position, ∃ fault, Malformed position text fault

/-- Its text is a lexeme of a token that is written and not the letter that the word starts with,
whatever follows. -/
theorem lexeme_chars (hl : ∀ l, t = .atom l → l.Lexical) (he : t ≠ .atom (.literal 'e')) :
    t.Lexeme t.chars after :=
  ⟨.inl rfl, fun h => absurd h he, hl⟩

/-- A letter or digit starts a lexeme. -/
theorem startsLexeme_of_isAlphanumeric (h : isAlphanumeric c = true) (after : List Char) :
    StartsLexeme (c :: after) := by
  by_cases heps : c = Label.epsilonChar
  · subst heps
    exact ⟨.atom .epsilon, _, after, rfl, lexeme_chars (by simp [Label.Lexical]) nofun⟩
  by_cases hword : Label.epsilonWord <+: c :: after
  · obtain ⟨tail, htail⟩ := hword
    exact ⟨.atom .epsilon, _, tail, htail.symm, .inr ⟨rfl, rfl⟩, nofun, by simp [Label.Lexical]⟩
  · exact ⟨.atom (.literal c), [c], after, rfl, .inl rfl, fun _ => hword,
      by simpa [Label.Lexical] using ⟨h, heps⟩⟩

/-- A `[` starts a range or nothing. -/
theorem starts_square (after : List Char) :
    StartsLexeme ('[' :: after) ∨ StartsNone ('[' :: after) := by
  by_cases hclose : ']' ∈ after
  · obtain ⟨inner, rest, rfl, hinner⟩ := List.eq_append_cons_of_mem hclose
    by_cases hrange : ∃ lo hi, lo ≤ hi ∧ inner = [lo, '-', hi]
    · obtain ⟨lo, hi, hle, rfl⟩ := hrange
      simp only [List.mem_cons, not_or] at hinner
      have hl : (Label.range lo hi).Lexical := ⟨hle, Ne.symm hinner.1, Ne.symm hinner.2.2.1⟩
      exact .inl ⟨.atom (.range lo hi), ['[', lo, '-', hi, ']'], rest, rfl,
        lexeme_chars (by simpa using hl) nofun⟩
    · exact .inr fun _ => ⟨_, .invalidRange hinner fun lo hi hle he => hrange ⟨lo, hi, hle, he⟩⟩
  · exact .inr fun _ => ⟨_, .unclosedRange hclose⟩

/-- An opening brace starts a set or nothing. -/
theorem starts_brace (after : List Char) :
    StartsLexeme ('{' :: after) ∨ StartsNone ('{' :: after) := by
  by_cases hclose : '}' ∈ after
  · obtain ⟨inner, rest, rfl, hinner⟩ := List.eq_append_cons_of_mem hclose
    cases inner with
    | nil => exact .inr fun _ => ⟨_, .emptySet⟩
    | cons d inner =>
      have hl : (Label.oneOf (d :: inner)).Lexical := ⟨List.cons_ne_nil _ _, hinner⟩
      exact .inl ⟨.atom (.oneOf (d :: inner)), '{' :: (d :: inner) ++ ['}'], rest, by simp,
        lexeme_chars (by simpa using hl) nofun⟩
  · exact .inr fun _ => ⟨_, .unclosedSet hclose⟩

/-- A text that starts with no blank starts with a lexeme, or there is a reason why not. -/
theorem starts_cons (h : isBlank c = false) (after : List Char) :
    StartsLexeme (c :: after) ∨ StartsNone (c :: after) := by
  by_cases hc : c ∈ signs
  · simp only [signs, List.mem_cons, List.not_mem_nil, or_false] at hc
    rcases hc with rfl | rfl | rfl | rfl | rfl | rfl | rfl | rfl
    · exact .inl ⟨.groupOpen, ['('], after, rfl, lexeme_chars nofun nofun⟩
    · exact .inl ⟨.groupClose, [')'], after, rfl, lexeme_chars nofun nofun⟩
    · exact .inl ⟨.union, ['+'], after, rfl, lexeme_chars nofun nofun⟩
    · exact .inl ⟨.repetition .star, ['*'], after, rfl, lexeme_chars nofun nofun⟩
    · exact .inl ⟨.repetition .plus, ['^'], after, rfl, lexeme_chars nofun nofun⟩
    · exact .inl ⟨.atom .any, ['.'], after, rfl, lexeme_chars (by simp [Label.Lexical]) nofun⟩
    · exact starts_square after
    · exact starts_brace after
  · cases ha : isAlphanumeric c with
    | true => exact .inl (startsLexeme_of_isAlphanumeric ha after)
    | false => exact .inr fun _ => ⟨_, .unexpectedChar h ha hc⟩

end Token

/-- A text starts with one lexeme at most. -/
theorem Token.Lexeme.unique {t u : Token} {cs ds after after' : List Char}
    (ht : t.Lexeme cs after) (hu : u.Lexeme ds after') (h : cs ++ after = ds ++ after') :
    t = u ∧ after = after' := by
  -- with a group open, a lexer reads either of them
  obtain ⟨o, hto⟩ : ∃ o, t.opened? 0 [0] = some o := by cases t <;> exact ⟨_, rfl⟩
  obtain ⟨o', huo⟩ : ∃ o, u.opened? 0 [0] = some o := by cases u <;> exact ⟨_, rfl⟩
  have hnext := (Lexer.next_lexeme ht hto).symm.trans (h ▸ Lexer.next_lexeme hu huo)
  simp only [Prod.mk.injEq, Except.ok.injEq, Option.some.injEq, Lexer.mk.injEq] at hnext
  exact ⟨hnext.1, hnext.2.1⟩

end Acceptor
