/-
Names that are given to numbers, with their digits behind a prefix or in letters. Main statements:
no two numbers get the same name (`numbered_inj`, `subsetName_inj`). In letters the name of `n` is
the numeral of `n + 1` in bijective base 26, where `A` counts 1, `Z` counts 26 and no letter counts
nothing, so every word is the name of one number, and numbers are in the order of their names,
shorter ones first and those of one length by the alphabet; machine words find the same names
(`subsetName_numeral`).
-/
import Acceptor.Table.Subsets
import Mathlib.Data.List.Induction

namespace Acceptor

variable {c : Char} {d m n : Nat} {xs ys : List Char}

/-! ## Digits behind a prefix -/

theorem repr_inj (h : m.repr = n.repr) : m = n := by
  have hdigits : Nat.toDigits 10 m = Nat.toDigits 10 n := by
    rw [← Nat.toList_repr, ← Nat.toList_repr, h]
  rw [← Nat.ofDigitChars_toDigits (b := 10) (n := m) (by decide) (by decide), hdigits,
    Nat.ofDigitChars_toDigits (by decide) (by decide)]

/-- Numbers behind the same text are told apart. -/
theorem numbered_inj {text : String} (h : text ++ toString m = text ++ toString n) : m = n :=
  repr_inj ((String.append_right_inj text).1 h)

theorem Table.stateName_inj (h : stateName m = stateName n) : m = n :=
  numbered_inj h

/-! ## Letters -/

def IsLetter (c : Char) : Prop := 'A' ≤ c ∧ c ≤ 'Z'

/-- What a letter counts. -/
def letterValue (c : Char) : Nat := c.toNat - 'A'.toNat + 1

theorem toNat_letter (hd : d < 26) : (letter d).toNat = 'A'.toNat + d := by
  rw [letter, toNat_ofNat_of_isValidChar]
  show Nat.isValidChar (65 + d)
  unfold Nat.isValidChar
  omega

theorem letterValue_letter (hd : d < 26) : letterValue (letter d) = d + 1 := by
  rw [letterValue, toNat_letter hd, Nat.add_sub_cancel_left]

theorem isLetter_letter (hd : d < 26) : IsLetter (letter d) := by
  show 'A'.toNat ≤ (letter d).toNat ∧ (letter d).toNat ≤ 'Z'.toNat
  rw [toNat_letter hd]
  show 65 ≤ 65 + d ∧ 65 + d ≤ 90
  omega

/-- A letter is that of one of the 26 digits. -/
theorem IsLetter.exists_digit (h : IsLetter c) : ∃ d < 26, letter d = c := by
  obtain ⟨hA, hZ⟩ : 65 ≤ c.toNat ∧ c.toNat ≤ 90 := h
  have hd : c.toNat - 65 < 26 := by omega
  refine ⟨c.toNat - 65, hd, Char.toNat_inj.1 ?_⟩
  rw [toNat_letter hd]
  exact Nat.add_sub_cancel' hA

theorem letter_lt_iff {e : Nat} (hd : d < 26) (he : e < 26) : letter d < letter e ↔ d < e := by
  show (letter d).toNat < (letter e).toNat ↔ d < e
  rw [toNat_letter hd, toNat_letter he]
  omega

/-! ## Words of letters -/

def IsWord (cs : List Char) : Prop := ∀ c ∈ cs, IsLetter c

/-- The number that a word of letters writes, the first letter counting most. -/
def numeral (cs : List Char) : Nat := cs.foldl (fun n c => 26 * n + letterValue c) 0

theorem numeral_concat (xs : List Char) (c : Char) :
    numeral (xs ++ [c]) = 26 * numeral xs + letterValue c := by
  simp [numeral]

theorem isWord_concat : IsWord (xs ++ [c]) ↔ IsWord xs ∧ IsLetter c := by
  simp [IsWord, or_imp, forall_and]

/-- A word that is something ends in the letter of a digit. -/
theorem IsWord.exists_concat (h : IsWord xs) (hne : xs ≠ []) :
    ∃ front d, xs = front ++ [letter d] ∧ IsWord front ∧ d < 26 := by
  obtain ⟨front, c, rfl⟩ := (List.eq_nil_or_concat xs).resolve_left hne
  rw [List.concat_eq_append] at h ⊢
  obtain ⟨hfront, hc⟩ := isWord_concat.1 h
  obtain ⟨d, hd, rfl⟩ := hc.exists_digit
  exact ⟨front, d, rfl, hfront, hd⟩

theorem isWord_subsetLetters (n : Nat) : IsWord (subsetLetters n) := by
  fun_induction subsetLetters n with
  | case1 n hn => exact List.forall_mem_singleton.2 (isLetter_letter hn)
  | case2 n hn ih => exact isWord_concat.2 ⟨ih, isLetter_letter (Nat.mod_lt n (by decide))⟩

/-- The name of a number writes the number after it. -/
theorem numeral_subsetLetters (n : Nat) : numeral (subsetLetters n) = n + 1 := by
  fun_induction subsetLetters n with
  | case1 n hn =>
    show 26 * 0 + letterValue (letter n) = n + 1
    rw [letterValue_letter hn]
    omega
  | case2 n hn ih =>
    rw [numeral_concat, ih, letterValue_letter (Nat.mod_lt n (by decide))]
    omega

/-- Every word that is something is the name of the number before the one that it writes. -/
theorem exists_subsetLetters (h : IsWord xs) (hne : xs ≠ []) : ∃ n, subsetLetters n = xs := by
  induction xs using List.reverseRecOn with
  | nil => exact absurd rfl hne
  | append_singleton front c ih =>
    obtain ⟨hfront, hc⟩ := isWord_concat.1 h
    obtain ⟨d, hd, rfl⟩ := hc.exists_digit
    by_cases hnil : front = []
    · subst hnil
      exact ⟨d, by rw [subsetLetters, if_pos hd]; rfl⟩
    · obtain ⟨m, rfl⟩ := ih hfront hnil
      refine ⟨26 * (m + 1) + d, ?_⟩
      have hquot : (26 * (m + 1) + d) / 26 - 1 = m := by omega
      have hrem : (26 * (m + 1) + d) % 26 = d := by omega
      rw [subsetLetters, if_neg (by omega), hquot, hrem]

/-! ## The order of numerals -/

/-- The last letters decide where the words before them are the same. -/
theorem concat_lt_concat_iff {c d : Char} (h : xs.length = ys.length) :
    xs ++ [c] < ys ++ [d] ↔ xs < ys ∨ xs = ys ∧ c < d := by
  induction xs generalizing ys with
  | nil =>
    obtain rfl := List.length_eq_zero_iff.1 h.symm
    simp [List.cons_lt_cons_iff]
  | cons x xs ih =>
    cases ys with
    | nil => cases h
    | cons y ys =>
      have ih := ih (Nat.succ.inj h)
      rw [List.cons_append, List.cons_append, List.cons_lt_cons_iff, List.cons_lt_cons_iff, ih,
        List.cons.injEq]
      tauto

theorem numeral_inj (hx : IsWord xs) (hy : IsWord ys) : numeral xs = numeral ys ↔ xs = ys := by
  refine ⟨fun h => ?_, fun h => h ▸ rfl⟩
  by_cases hxs : xs = []
  · subst hxs
    by_contra hys
    obtain ⟨n, rfl⟩ := exists_subsetLetters hy (Ne.symm hys)
    rw [numeral_subsetLetters] at h
    cases h
  · obtain ⟨m, rfl⟩ := exists_subsetLetters hx hxs
    by_cases hys : ys = []
    · subst hys
      rw [numeral_subsetLetters] at h
      cases h
    · obtain ⟨n, rfl⟩ := exists_subsetLetters hy hys
      rw [numeral_subsetLetters, numeral_subsetLetters] at h
      rw [Nat.succ.inj h]

/-- Words write numbers in their order: shorter ones first, and those of one length by the
alphabet. -/
theorem numeral_lt_iff (hx : IsWord xs) (hy : IsWord ys) : numeral xs < numeral ys ↔
    xs.length < ys.length ∨ xs.length = ys.length ∧ xs < ys := by
  induction xs using List.reverseRecOn generalizing ys with
  | nil =>
    by_cases hnil : ys = []
    · subst hnil
      simp
    · obtain ⟨front, d, rfl, -, hd⟩ := hy.exists_concat hnil
      rw [numeral_concat, letterValue_letter hd]
      refine iff_of_true ?_ (.inl (by simp))
      show 0 < _
      omega
  | append_singleton front c ih =>
    obtain ⟨hfront, hc⟩ := isWord_concat.1 hx
    obtain ⟨d, hd, rfl⟩ := hc.exists_digit
    by_cases hnil : ys = []
    · subst hnil
      simp [numeral]
    · obtain ⟨front', e, rfl, hfront', he⟩ := hy.exists_concat hnil
      -- a last letter counts at least 1 and at most 26, so the words before it count first
      have hdigits : 26 * numeral front + (d + 1) < 26 * numeral front' + (e + 1) ↔
          numeral front < numeral front' ∨ numeral front = numeral front' ∧ d < e := by
        omega
      rw [numeral_concat, numeral_concat, letterValue_letter hd, letterValue_letter he, hdigits,
        ih hfront hfront', numeral_inj hfront hfront']
      by_cases hlen : front.length = front'.length
      · simp [hlen, concat_lt_concat_iff hlen, letter_lt_iff hd he]
      · have hne : front ≠ front' := fun h => hlen (congrArg List.length h)
        simp [hlen, hne]

/-! ## Machine words -/

/-- At 26 and more there is something to take 1 from. -/
theorem toNat_div_sub_one {n : UInt64} (hn : 26 ≤ n) :
    (n / 26 - 1).toNat + 1 = (n / 26).toNat := by
  have hn : 26 ≤ n.toNat := UInt64.le_iff_toNat_le.1 hn
  have hdiv : (n / 26).toNat = n.toNat / 26 := UInt64.toNat_div n 26
  have hpos : 1 ≤ n / 26 := by
    rw [UInt64.le_iff_toNat_le, hdiv]
    show 1 ≤ n.toNat / 26
    omega
  have hsub : (n / 26 - 1).toNat = (n / 26).toNat - 1 := UInt64.toNat_sub_of_le _ _ hpos
  omega

/-- The letters of a name as machine words find them, whose subtraction goes round at zero. -/
def wordLetters (n : UInt64) : List Char :=
  if n < 26 then [letter n.toNat] else wordLetters (n / 26 - 1) ++ [letter (n % 26).toNat]
termination_by n.toNat
decreasing_by
  rename_i hn
  have hn : 26 ≤ n := UInt64.not_lt.1 hn
  have hdiv : (n / 26).toNat = n.toNat / 26 := UInt64.toNat_div n 26
  have := toNat_div_sub_one hn
  omega

/-- The name of a number as machine words find it. -/
def wordName (n : UInt64) : String :=
  String.ofList (wordLetters n)

theorem wordLetters_eq (n : UInt64) : wordLetters n = subsetLetters n.toNat := by
  fun_induction wordLetters n with
  | case1 n hn =>
    have hn : n.toNat < 26 := UInt64.lt_iff_toNat_lt.1 hn
    rw [subsetLetters, if_pos hn]
  | case2 n hn ih =>
    have hsub := toNat_div_sub_one (UInt64.not_lt.1 hn)
    have hdiv : (n / 26).toNat = n.toNat / 26 := UInt64.toNat_div n 26
    have hmod : (n % 26).toNat = n.toNat % 26 := UInt64.toNat_mod n 26
    have hn : ¬ n.toNat < 26 := fun h => hn (UInt64.lt_iff_toNat_lt.2 h)
    have hquot : (n / 26 - 1).toNat = n.toNat / 26 - 1 := by omega
    rw [subsetLetters, if_neg hn, ih, hquot, hmod]

/-! ## Names -/

/-- A text of letters that is something. -/
def IsName (s : String) : Prop := s ≠ "" ∧ IsWord s.toList

theorem toList_subsetName (n : Nat) : (subsetName n).toList = subsetLetters n :=
  String.toList_ofList

theorem numeral_subsetName (n : Nat) : numeral (subsetName n).toList = n + 1 := by
  rw [toList_subsetName, numeral_subsetLetters]

theorem isName_subsetName (n : Nat) : IsName (subsetName n) := by
  constructor
  · intro hempty
    have hvalue := numeral_subsetName n
    rw [hempty] at hvalue
    cases hvalue
  · rw [toList_subsetName]
    exact isWord_subsetLetters n

/-- Two numbers do not get the same name. -/
theorem subsetName_inj (h : subsetName m = subsetName n) : m = n := by
  have hvalue := numeral_subsetName m
  rw [h, numeral_subsetName] at hvalue
  exact (Nat.succ.inj hvalue).symm

theorem IsName.exists_subsetName {s : String} (h : IsName s) : ∃ n, subsetName n = s := by
  obtain ⟨hne, hword⟩ := h
  obtain ⟨n, hn⟩ := exists_subsetLetters hword fun hnil => hne (String.toList_eq_nil_iff.1 hnil)
  exact ⟨n, by rw [subsetName, hn, String.ofList_toList]⟩

theorem wordName_eq (n : UInt64) : wordName n = subsetName n.toNat := by
  rw [wordName, wordLetters_eq]
  rfl

/-- The name of `n` is a text of letters that writes `n + 1`, and each such text is the name of one
number. The smaller of two numbers has the shorter name or, at the same length, the one that comes
first in the alphabet. Machine words find the same names, as their subtraction never goes below
zero, and so each text that writes a number up to their size is the name of one of them. -/
theorem subsetName_numeral :
    (∀ n, IsName (subsetName n) ∧ numeral (subsetName n).toList = n + 1) ∧
    (∀ s, IsName s → ∃! n, subsetName n = s) ∧
    (∀ m n, m < n ↔ (subsetName m).length < (subsetName n).length ∨
      (subsetName m).length = (subsetName n).length ∧ subsetName m < subsetName n) ∧
    (∀ n : UInt64, wordName n = subsetName n.toNat ∧
      (26 ≤ n → (n / 26 - 1).toNat + 1 = (n / 26).toNat)) ∧
    ∀ s, IsName s → numeral s.toList ≤ UInt64.size → ∃! n : UInt64, wordName n = s := by
  refine ⟨fun n => ⟨isName_subsetName n, numeral_subsetName n⟩, fun s hs => ?_, fun m n => ?_,
    fun n => ⟨wordName_eq n, toNat_div_sub_one⟩, fun s hs hsize => ?_⟩
  · obtain ⟨n, rfl⟩ := hs.exists_subsetName
    exact ⟨n, rfl, fun m hm => subsetName_inj hm⟩
  · rw [String.lt_iff, ← String.length_toList, ← String.length_toList, toList_subsetName,
      toList_subsetName, ← numeral_lt_iff (isWord_subsetLetters m) (isWord_subsetLetters n),
      numeral_subsetLetters, numeral_subsetLetters]
    omega
  · obtain ⟨n, rfl⟩ := hs.exists_subsetName
    rw [numeral_subsetName] at hsize
    have hn : (UInt64.ofNat n).toNat = n := UInt64.toNat_ofNat_of_lt hsize
    refine ⟨UInt64.ofNat n, ?_, fun m hm => ?_⟩
    · show wordName (UInt64.ofNat n) = subsetName n
      rw [wordName_eq, hn]
    · have hm : wordName m = subsetName n := hm
      rw [wordName_eq] at hm
      rw [← subsetName_inj hm, UInt64.ofNat_toNat]

-- no number is left out between the words of one length and those of the next
example : numeral ['Z', 'Z'] = 702 ∧ numeral ['A', 'A', 'A'] = 703 := by decide

end Acceptor
