/-
The sweep over the cut points: the segments between them tile the characters from the first cut
point on, and no interval that gave rise to a cut point ends or starts inside a segment
(`contains_iff_of_mem_segments`), so a label reads all characters of a segment or none of them
(`reads_eq_of_mem_segments`).
-/
import Acceptor.CharClass
import Mathlib.Data.Char

namespace Acceptor

/-! ## Neighbouring characters -/

theorem le_lastChar (c : Char) : c ≤ lastChar := by
  have hc := toNat_isValidChar c
  change c.toNat ≤ lastChar.toNat
  rw [toNat_lastChar]
  omega

/-- Above some other character there is always one just before. -/
theorem next?_previous {p q : Char} (h : p < q) : next? (previous q) = some q := by
  have hp := toNat_isValidChar p
  have hq := toNat_isValidChar q
  have hlt : p.toNat < q.toNat := h
  unfold previous
  split
  · rename_i he
    subst he
    decide
  · rename_i he
    have he' : q.toNat ≠ 0xE000 := fun h' => he (Char.toNat_inj.1 h')
    have hvalid : (q.toNat - 1).isValidChar := by
      simp only [Nat.isValidChar]
      omega
    have hpred : (Char.ofNat (q.toNat - 1)).toNat = q.toNat - 1 :=
      toNat_ofNat_of_isValidChar hvalid
    have hlast : Char.ofNat (q.toNat - 1) ≠ lastChar := by
      intro hl
      rw [← Char.toNat_inj, hpred, toNat_lastChar] at hl
      omega
    cases hn : next? (Char.ofNat (q.toNat - 1)) with
    | none => exact absurd (next?_eq_none_iff.1 hn) hlast
    | some d =>
      have hd := toNat_of_next? hn
      rw [hpred] at hd
      -- the character before the gap is the other case
      have hgap : q.toNat - 1 ≠ 0xD7FF := by omega
      rw [if_neg hgap] at hd
      congr 1
      apply Char.toNat_inj.1
      omega

theorem lt_of_next? {c d : Char} (h : next? c = some d) : c < d :=
  (le_of_next? h).1 (Char.le_refl d)

/-- What lies before the next character is not above the given one. -/
theorem lt_next?_iff {c d e : Char} (h : next? c = some d) : e < d ↔ e ≤ c := by
  rw [← not_le, le_of_next? h, not_lt]

/-- A character lies above another exactly where the next one after that is reached. -/
theorem lt_iff_exists_next? {h c : Char} : h < c ↔ ∃ d, next? h = some d ∧ d ≤ c := by
  constructor
  · intro hlt
    cases hn : next? h with
    | none =>
      rw [next?_eq_none_iff] at hn
      subst hn
      exact absurd hlt (not_lt.2 (le_lastChar c))
    | some d => exact ⟨d, rfl, (le_of_next? hn).2 hlt⟩
  · rintro ⟨d, hd, hle⟩
    exact (le_of_next? hd).1 hle

/-- An interval that holds its own ends. -/
def Interval.Proper (i : Interval) : Prop := i.lo ≤ i.hi

namespace CharClass

/-! ## Segments -/

theorem lo_mem_of_mem_segments {ps : List Char} {s : Interval} (h : s ∈ segments ps) :
    s.lo ∈ ps := by
  fun_induction segments ps with
  | case1 => cases h
  | case2 p => simp_all
  | case3 p q rest ih =>
    rcases List.mem_cons.1 h with rfl | h
    · exact List.mem_cons_self
    · exact List.mem_cons_of_mem _ (ih h)

theorem proper_of_mem_segments {ps : List Char} (hps : ps.Pairwise (· < ·)) {s : Interval}
    (h : s ∈ segments ps) : s.Proper := by
  fun_induction segments ps with
  | case1 => cases h
  | case2 p =>
    obtain rfl := List.mem_singleton.1 h
    exact le_lastChar p
  | case3 p q rest ih =>
    rw [List.pairwise_cons] at hps
    rcases List.mem_cons.1 h with rfl | h
    · have hlt := hps.1 q List.mem_cons_self
      exact (lt_next?_iff (next?_previous hlt)).1 hlt
    · exact ih hps.2 h

theorem segments_pairwise {ps : List Char} (hps : ps.Pairwise (· < ·)) :
    (segments ps).Pairwise (fun a b => a.hi < b.lo) := by
  fun_induction segments ps with
  | case1 => exact .nil
  | case2 p => exact List.pairwise_singleton _ _
  | case3 p q rest ih =>
    rw [List.pairwise_cons] at hps
    refine List.pairwise_cons.2 ⟨fun s hs => ?_, ih hps.2⟩
    have hq : q ≤ s.lo := by
      rcases List.mem_cons.1 (lo_mem_of_mem_segments hs) with he | hm
      · exact he ▸ le_refl _
      · exact le_of_lt ((List.pairwise_cons.1 hps.2).1 _ hm)
    have hprev := lt_of_next? (next?_previous (hps.1 q List.mem_cons_self))
    exact lt_of_lt_of_le hprev hq

/-- The cut points up to a character of a segment are those up to its first character. -/
theorem le_iff_of_mem_segments {ps : List Char} (hps : ps.Pairwise (· < ·)) {s : Interval}
    (h : s ∈ segments ps) {c : Char} (hc : s.contains c = true) {p : Char} (hp : p ∈ ps) :
    p ≤ c ↔ p ≤ s.lo := by
  rw [Interval.contains_eq_true_iff] at hc
  refine ⟨fun hle => ?_, fun hle => le_trans hle hc.1⟩
  fun_induction segments ps with
  | case1 => cases h
  | case2 q =>
    obtain rfl := List.mem_singleton.1 h
    exact le_of_eq (List.mem_singleton.1 hp)
  | case3 q r rest ih =>
    rw [List.pairwise_cons] at hps
    have hqr := hps.1 r List.mem_cons_self
    rcases List.mem_cons.1 h with rfl | hs
    · have hcr : c < r := (lt_next?_iff (next?_previous hqr)).2 hc.2
      rcases List.mem_cons.1 hp with rfl | hp
      · exact le_refl _
      · rcases List.mem_cons.1 hp with rfl | hp
        · exact absurd hle (not_le.2 hcr)
        · have := (List.pairwise_cons.1 hps.2).1 p hp
          exact absurd hle (not_le.2 (lt_trans hcr this))
    · rcases List.mem_cons.1 hp with rfl | hp
      · exact le_of_lt (hps.1 _ (lo_mem_of_mem_segments hs))
      · exact ih hps.2 hs hp

/-- From the first cut point on every character lies in a segment. -/
theorem exists_mem_segments {ps : List Char} (hps : ps.Pairwise (· < ·)) {c p : Char}
    (hp : p ∈ ps) (hle : p ≤ c) : ∃ s ∈ segments ps, s.contains c = true := by
  fun_induction segments ps generalizing p with
  | case1 => cases hp
  | case2 q =>
    obtain rfl := List.mem_singleton.1 hp
    exact ⟨_, List.mem_singleton_self _,
      Interval.contains_eq_true_iff.2 ⟨hle, le_lastChar c⟩⟩
  | case3 q r rest ih =>
    rw [List.pairwise_cons] at hps
    have hqr := hps.1 r List.mem_cons_self
    by_cases hcr : c < r
    · refine ⟨_, List.mem_cons_self, Interval.contains_eq_true_iff.2 ⟨?_, ?_⟩⟩
      · rcases List.mem_cons.1 hp with rfl | hp
        · exact hle
        · exact le_of_lt (lt_of_lt_of_le (hps.1 p hp) hle)
      · exact (lt_next?_iff (next?_previous hqr)).1 hcr
    · rcases List.mem_cons.1 hp with rfl | hp
      · obtain ⟨s, hs, hc⟩ := ih hps.2 List.mem_cons_self (not_lt.1 hcr)
        exact ⟨s, List.mem_cons_of_mem _ hs, hc⟩
      · obtain ⟨s, hs, hc⟩ := ih hps.2 hp hle
        exact ⟨s, List.mem_cons_of_mem _ hs, hc⟩

/-! ## Segments of the labels' intervals -/

theorem mem_cutPoints {is : List Interval} {p : Char} :
    p ∈ cutPoints is ↔ ∃ i ∈ is, p = i.lo ∨ next? i.hi = some p := by
  simp [cutPoints]

/-- The segments cut out by some intervals. -/
abbrev segmentsOf (is : List Interval) : List Interval :=
  segments (cutPoints is).toList

/-- Whether an interval holds a character does not change within a segment. -/
theorem contains_iff_of_mem_segments {is : List Interval} {s : Interval} (hs : s ∈ segmentsOf is)
    {c : Char} (hc : s.contains c = true) {i : Interval} (hi : i ∈ is) :
    i.contains c = i.contains s.lo := by
  have hcut : ∀ p ∈ cutPoints is, (p ≤ c ↔ p ≤ s.lo) := fun p hp =>
    le_iff_of_mem_segments (cutPoints is).increasing hs hc hp
  have hlo : i.lo ≤ c ↔ i.lo ≤ s.lo := hcut i.lo (mem_cutPoints.2 ⟨i, hi, .inl rfl⟩)
  have hhi : c ≤ i.hi ↔ s.lo ≤ i.hi := by
    rw [← not_lt, ← not_lt, lt_iff_exists_next?, lt_iff_exists_next?]
    refine not_congr (exists_congr fun d => and_congr_right fun hd => ?_)
    exact hcut d (mem_cutPoints.2 ⟨i, hi, .inr hd⟩)
  rw [Bool.eq_iff_iff, Interval.contains_eq_true_iff, Interval.contains_eq_true_iff, hlo, hhi]

/-- Every character of an interval that gave rise to the cut points lies in a segment. -/
theorem exists_segment {is : List Interval} {i : Interval} (hi : i ∈ is) {c : Char}
    (hc : i.contains c = true) : ∃ s ∈ segmentsOf is, s.contains c = true := by
  have hlo : i.lo ∈ cutPoints is := mem_cutPoints.2 ⟨i, hi, .inl rfl⟩
  exact exists_mem_segments (cutPoints is).increasing hlo (Interval.contains_eq_true_iff.1 hc).1

/-- The intervals of some labels. -/
abbrev regionOf (labels : List Label) : List Interval :=
  labels.flatMap Label.intervals

/-- A label reads all characters of a segment or none of them. -/
theorem reads_eq_of_mem_segments {labels : List Label} {s : Interval}
    (hs : s ∈ segmentsOf (regionOf labels)) {c : Char} (hc : s.contains c = true) {l : Label}
    (hl : l ∈ labels) : l.reads c = l.reads s.lo := by
  rw [Label.reads_eq_any, Label.reads_eq_any]
  congr 1
  rw [Bool.eq_iff_iff, List.any_eq_true, List.any_eq_true]
  refine exists_congr fun i => and_congr_right fun hi => ?_
  have hmem : i ∈ regionOf labels := List.mem_flatMap.2 ⟨l, hl, hi⟩
  rw [contains_iff_of_mem_segments hs hc hmem]

end CharClass

end Acceptor
