/-
Reading labels back from their texts: well-formed labels are read back from their own text
(`read?_chars`), and what is read from a text is well formed and has that text, the word `epsilon`
apart (`of_read?_eq_some`). So well-formed labels with one text are equal (`eq_of_text_eq`). Main
statement: `ofText_text_exact`, which also says what the texts of all other labels read as.
-/
import Acceptor.Label
import Mathlib.Data.List.Basic

namespace Acceptor.Label

/-- A label that its own text tells apart from all others. -/
def WellFormed : Label → Prop
  | epsilon => True
  | any => True
  | literal c => c ≠ '.' ∧ c ≠ epsilonChar
  | range lo hi => lo ≤ hi
  | oneOf cs => cs ≠ []
  | noneOf is => is ≠ [] ∧ ∀ i ∈ is, i.lo ≤ i.hi

/-! ## Parts of a text -/

theorem before?_eq_some_iff {last : Char} {cs xs : List Char} :
    before? last cs = some xs ↔ cs = xs ++ [last] := by
  unfold before?
  constructor
  · intro h
    split at h
    · rename_i hlast
      cases h
      exact (List.dropLast_append_getLast? last hlast).symm
    · cases h
  · rintro rfl
    simp

/-- The text of an interval. -/
abbrev intervalChars (i : Interval) : List Char := [i.lo, '-', i.hi]

theorem readIntervals?_eq_some_iff {cs : List Char} {is : List Interval} :
    readIntervals? cs = some is ↔ cs = is.flatMap intervalChars ∧ ∀ i ∈ is, i.lo ≤ i.hi := by
  constructor
  · intro h
    fun_induction readIntervals? cs generalizing is with
    | case1 => cases h; simp
    | case2 lo hi rest hle ih =>
      obtain ⟨js, hjs, rfl⟩ := Option.map_eq_some_iff.1 h
      obtain ⟨he, hall⟩ := ih hjs
      exact ⟨by rw [he]; rfl, fun i hi => (List.mem_cons.1 hi).elim (fun he => he ▸ hle) (hall i)⟩
    | case3 => cases h
    | case4 => cases h
  · rintro ⟨rfl, hall⟩
    induction is with
    | nil => rfl
    | cons i rest ih =>
      have hle := hall i List.mem_cons_self
      have hrest := ih fun j hj => hall j (List.mem_cons_of_mem _ hj)
      change readIntervals? (i.lo :: '-' :: i.hi :: rest.flatMap intervalChars) = _
      rw [readIntervals?, if_pos hle, hrest]
      rfl

/-- Texts of intervals tell them apart. -/
theorem eq_of_flatMap_eq {is js : List Interval}
    (h : is.flatMap intervalChars = js.flatMap intervalChars) : is = js := by
  induction is generalizing js with
  | nil =>
    cases js with
    | nil => rfl
    | cons j js => cases h
  | cons i is ih =>
    cases js with
    | nil => cases h
    | cons j js =>
      have hchars : i.lo :: '-' :: i.hi :: is.flatMap intervalChars =
        j.lo :: '-' :: j.hi :: js.flatMap intervalChars := h
      simp only [List.cons.injEq, true_and] at hchars
      obtain ⟨hlo, hhi, hrest⟩ := hchars
      rw [ih hrest, show i = j from congr (congrArg Interval.mk hlo) hhi]

theorem readNoneOf?_eq_some_iff {cs : List Char} {l : Label} :
    readNoneOf? cs = some l ↔
      ∃ is, l = noneOf is ∧ WellFormed (noneOf is) ∧ cs = is.flatMap intervalChars ++ [']'] := by
  unfold readNoneOf?
  constructor
  · intro h
    split at h
    · rename_i i rest hread
      cases h
      obtain ⟨xs, hxs, his⟩ := Option.bind_eq_some_iff.1 hread
      obtain ⟨rfl, hall⟩ := readIntervals?_eq_some_iff.1 his
      exact ⟨_, rfl, ⟨List.cons_ne_nil _ _, hall⟩, before?_eq_some_iff.1 hxs⟩
    · cases h
  · rintro ⟨is, rfl, ⟨hne, hall⟩, rfl⟩
    rw [before?_eq_some_iff.2 rfl, Option.bind_some, readIntervals?_eq_some_iff.2 ⟨rfl, hall⟩]
    cases is with
    | nil => exact absurd rfl hne
    | cons i rest => rfl

theorem readRange?_eq_some_iff {cs : List Char} {l : Label} :
    readRange? cs = some l ↔ ∃ lo hi, l = range lo hi ∧ lo ≤ hi ∧ cs = [lo, '-', hi, ']'] := by
  unfold readRange?
  constructor
  · intro h
    split at h
    · rename_i lo hi
      simp only [Option.ite_none_right_eq_some, Option.some.injEq] at h
      exact ⟨lo, hi, h.2.symm, h.1, rfl⟩
    · cases h
  · rintro ⟨lo, hi, rfl, hle, rfl⟩
    exact if_pos hle

theorem readOneOf?_eq_some_iff {cs : List Char} {l : Label} :
    readOneOf? cs = some l ↔
      ∃ members, l = oneOf members ∧ members ≠ [] ∧ cs = members ++ ['}'] := by
  unfold readOneOf?
  constructor
  · intro h
    split at h
    · rename_i c rest hread
      cases h
      exact ⟨_, rfl, List.cons_ne_nil _ _, before?_eq_some_iff.1 hread⟩
    · cases h
  · rintro ⟨members, rfl, hne, rfl⟩
    rw [before?_eq_some_iff.2 rfl]
    cases members with
    | nil => exact absurd rfl hne
    | cons c rest => rfl

/-! ## Whole texts -/

/-- What is read from a text is well formed and has that text; only the label that reads nothing
has a second one. -/
theorem of_read?_eq_some {cs : List Char} {l : Label} (h : read? cs = some l) :
    l.WellFormed ∧ (cs = l.chars ∨ l = epsilon ∧ cs = epsilonWord) := by
  unfold read? at h
  split at h
  · rename_i heps
    cases h
    exact ⟨trivial, heps.imp_right fun he => ⟨rfl, he⟩⟩
  · rename_i hne
    split at h
    · cases h; exact ⟨trivial, .inl rfl⟩
    · rename_i c hdot
      cases h
      exact ⟨⟨fun he => hdot (he ▸ rfl), fun he => hne (.inl (he ▸ rfl))⟩, .inl rfl⟩
    · rename_i rest
      rcases Option.or_eq_some_iff.1 h with h | ⟨-, h⟩
      · obtain ⟨is, rfl, hwf, rfl⟩ := readNoneOf?_eq_some_iff.1 h
        exact ⟨hwf, .inl rfl⟩
      · obtain ⟨lo, hi, rfl, hle, he⟩ := readRange?_eq_some_iff.1 h
        exact ⟨hle, .inl (by rw [he]; rfl)⟩
    · obtain ⟨lo, hi, rfl, hle, rfl⟩ := readRange?_eq_some_iff.1 h
      exact ⟨hle, .inl rfl⟩
    · obtain ⟨members, rfl, hnil, rfl⟩ := readOneOf?_eq_some_iff.1 h
      exact ⟨hnil, .inl rfl⟩
    · cases h

theorem not_epsilon_of_head {c : Char} {rest : List Char} (h₁ : c ≠ epsilonChar) (h₂ : c ≠ 'e') :
    ¬ (c :: rest = [epsilonChar] ∨ c :: rest = epsilonWord) := by
  rintro (he | he)
  · exact h₁ (List.cons.inj he).1
  · exact h₂ (List.cons.inj he).1

theorem read?_caret (rest : List Char) :
    read? ('[' :: '^' :: rest) = (readNoneOf? rest).or (readRange? ('^' :: rest)) := by
  unfold read?
  rw [if_neg (not_epsilon_of_head (by decide) (by decide))]
  simp

theorem read?_square {d : Char} {rest : List Char} (hd : d ≠ '^') :
    read? ('[' :: d :: rest) = readRange? (d :: rest) := by
  unfold read?
  rw [if_neg (not_epsilon_of_head (by decide) (by decide))]
  simp [hd]

theorem read?_brace (d : Char) (rest : List Char) :
    read? ('\x7b' :: d :: rest) = readOneOf? (d :: rest) := by
  unfold read?
  rw [if_neg (not_epsilon_of_head (by decide) (by decide))]
  simp

/-- A range whose lower end is `^` does not read as a list of intervals. -/
theorem readNoneOf?_range (hi : Char) : readNoneOf? ['-', hi, ']'] = none := by
  rw [Option.eq_none_iff_forall_ne_some]
  intro l hl
  obtain ⟨is, -, ⟨hne, -⟩, hcs⟩ := readNoneOf?_eq_some_iff.1 hl
  cases is with
  | nil => exact hne rfl
  | cons i is =>
    have := congrArg List.length hcs
    simp at this

theorem read?_range (lo hi : Char) :
    read? (range lo hi).chars = if lo ≤ hi then some (range lo hi) else none := by
  change read? ('[' :: lo :: ['-', hi, ']']) = _
  by_cases hlo : lo = '^'
  · subst hlo
    rw [read?_caret, readNoneOf?_range, Option.none_or]
    rfl
  · rw [read?_square hlo]
    rfl

/-- A list of intervals is read back where it is not empty and its intervals are proper. -/
theorem read?_noneOf {is : List Interval} {l : Label} :
    read? (noneOf is).chars = some l ↔ l = noneOf is ∧ (noneOf is).WellFormed := by
  change read? ('[' :: '^' :: (is.flatMap intervalChars ++ [']'])) = _ ↔ _
  rw [read?_caret]
  constructor
  · intro h
    rcases Option.or_eq_some_iff.1 h with h | ⟨-, h⟩
    · obtain ⟨js, rfl, hwf, hcs⟩ := readNoneOf?_eq_some_iff.1 h
      obtain rfl := eq_of_flatMap_eq (List.append_cancel_right hcs)
      exact ⟨rfl, hwf⟩
    · -- a range has one character on each side of the dash, but here there are three to an interval
      obtain ⟨lo, hi, -, -, hcs⟩ := readRange?_eq_some_iff.1 h
      have hlen := congrArg List.length hcs
      simp only [List.length_cons, List.length_append, List.length_flatMap, List.length_nil,
        List.map_const', List.sum_replicate_nat] at hlen
      omega
  · rintro ⟨rfl, hwf⟩
    rw [readNoneOf?_eq_some_iff.2 ⟨is, rfl, hwf, rfl⟩, Option.some_or]

/-- A well-formed label is read back from its text. -/
theorem read?_chars {l : Label} (h : l.WellFormed) : read? l.chars = some l := by
  match l, h with
  | epsilon, _ => rfl
  | any, _ => rfl
  | literal c, ⟨hdot, heps⟩ =>
    have hne : ¬ ([c] = [epsilonChar] ∨ [c] = epsilonWord) := by
      rintro (he | he)
      · exact heps (List.cons.inj he).1
      · exact absurd (List.cons.inj he).2 (by decide)
    change read? [c] = _
    unfold read?
    rw [if_neg hne]
    simp
  | range lo hi, hle => exact (read?_range lo hi).trans (if_pos hle)
  | oneOf [], hne => exact absurd rfl hne
  | oneOf (c :: rest), hne =>
    change read? ('\x7b' :: c :: (rest ++ ['\x7d'])) = _
    rw [read?_brace]
    exact readOneOf?_eq_some_iff.2 ⟨_, rfl, hne, rfl⟩
  | noneOf is, hwf => exact read?_noneOf.2 ⟨rfl, hwf⟩

/-- The text of a label that is not well formed reads as no label, unless it is `.` or `ε`. -/
theorem read?_chars_eq_none {l : Label} (h : ¬ l.WellFormed) (hdot : l ≠ literal '.')
    (heps : l ≠ literal epsilonChar) : read? l.chars = none := by
  match l, h with
  | epsilon, h => exact absurd trivial h
  | any, h => exact absurd trivial h
  | literal c, h => exact absurd ⟨fun he => hdot (he ▸ rfl), fun he => heps (he ▸ rfl)⟩ h
  | range lo hi, h => exact (read?_range lo hi).trans (if_neg h)
  | oneOf [], _ => rfl
  | oneOf (c :: rest), h => exact absurd (List.cons_ne_nil c rest) h
  | noneOf is, h => exact Option.eq_none_iff_forall_ne_some.2 fun m hm => h (read?_noneOf.1 hm).2

theorem ofText_text {l : Label} (h : l.WellFormed) : ofText l.text = .ok l := by
  rw [ofText_eq_ok_iff, text, String.toList_ofList]
  exact read?_chars h

/-- Well-formed labels with one text are equal. -/
theorem eq_of_text_eq {l m : Label} (hl : l.WellFormed) (hm : m.WellFormed) (h : l.text = m.text) :
    l = m := by
  have := ofText_text hl
  rw [h, ofText_text hm] at this
  exact (Except.ok.inj this).symm

/-- A label that a column stands for is well formed. -/
theorem wellFormed_of_ofText {s : String} {l : Label} (h : ofText s = .ok l) : l.WellFormed :=
  (of_read?_eq_some (ofText_eq_ok_iff.1 h)).1

/-- A column that does not read nothing is named by the text of its label. -/
theorem text_of_ofText {s : String} {l : Label} (h : ofText s = .ok l) (hl : l ≠ epsilon) :
    l.text = s := by
  rcases (of_read?_eq_some (ofText_eq_ok_iff.1 h)).2 with he | ⟨he, -⟩
  · rw [text, ← he, String.ofList_toList]
  · exact absurd he hl

/-- Labels and their texts are inverse to each other. A label is read back from its text exactly
where it is well formed. The literals `.` and `ε` read as the labels that are written so, and the
texts of all other labels are no labels. What a text reads as is written like it, the word
`epsilon` apart. -/
theorem ofText_text_exact :
    (∀ l : Label, ofText l.text = .ok l ↔ l.WellFormed) ∧
    ofText (literal '.').text = .ok any ∧ ofText (literal 'ε').text = .ok epsilon ∧
    (∀ l : Label, ¬ l.WellFormed → l ≠ literal '.' → l ≠ literal 'ε' →
      ofText l.text = .error (.invalidSymbol l.text)) ∧
    ofText "epsilon" = .ok epsilon ∧
    ∀ (s : String) (l : Label), ofText s = .ok l → l.text = if s = "epsilon" then "ε" else s := by
  refine ⟨fun l => ⟨wellFormed_of_ofText, ofText_text⟩, rfl, rfl, fun l hwf hdot heps => ?_, rfl,
    fun s l h => ?_⟩
  · rw [ofText, text, String.toList_ofList, read?_chars_eq_none hwf hdot heps]
  · split
    · rename_i hs
      subst hs
      cases h
      rfl
    · rename_i hs
      rcases (of_read?_eq_some (ofText_eq_ok_iff.1 h)).2 with he | ⟨-, he⟩
      · rw [text, ← he, String.ofList_toList]
      · exact absurd (String.toList_inj.1 he) hs

-- a range may start with the sign that marks excluded intervals
example : ofText "[^-a]" = .ok (range '^' 'a') ∧ ofText "[^a-b]" = .ok (noneOf [⟨'a', 'b'⟩]) :=
  ⟨rfl, rfl⟩

end Acceptor.Label
