/-
The partition of the characters by some labels. Every character that some label reads is read by
the label of exactly one class, whose members are the labels that read it, and no class reads any
other character; the finite classes are intervals in increasing order, none of which could be
joined with the next, and the characters that no interval decides make up the last class.
-/
import Acceptor.Proofs.CharClass.Bands
import Mathlib.Order.MinMax

namespace Acceptor

namespace CharClass

/-! ## The label of an interval -/

theorem reads_intervalLabel {i : Interval} {c : Char} :
    (intervalLabel i).reads c = i.contains c := by
  unfold intervalLabel
  split
  · rename_i h
    rw [Bool.eq_iff_iff, Interval.contains_eq_true_iff, ← h.1, ← le_antisymm_iff]
    simp [Label.reads]
  · rfl

theorem isCofinite_intervalLabel (i : Interval) : (intervalLabel i).isCofinite = false := by
  unfold intervalLabel
  split <;> rfl

/-! ## Merging intervals -/

/-- Some of the intervals hold the character. -/
def Holds (is : List Interval) (c : Char) : Prop := ∃ i ∈ is, i.contains c = true

theorem holds_cons {i : Interval} {is : List Interval} {c : Char} :
    Holds (i :: is) c ↔ i.contains c = true ∨ Holds is c := by
  simp [Holds]

/-- An interval takes in one that starts neither before it nor beyond what follows its end. -/
theorem contains_extend {i j : Interval} (hlo : i.lo ≤ j.lo)
    (h : (next? i.hi).all (j.lo ≤ ·) = true) (c : Char) :
    Interval.contains ⟨i.lo, if i.hi < j.hi then j.hi else i.hi⟩ c = true ↔
      i.contains c = true ∨ j.contains c = true := by
  have hmax : (if i.hi < j.hi then j.hi else i.hi) = max i.hi j.hi := by
    split
    · rename_i hlt; rw [max_eq_right (le_of_lt hlt)]
    · rename_i hlt; rw [max_eq_left (not_lt.1 hlt)]
  rw [hmax]
  simp only [Interval.contains_eq_true_iff, le_max_iff]
  constructor
  · rintro ⟨h₁, h₂⟩
    by_cases hc : c ≤ i.hi
    · exact .inl ⟨h₁, hc⟩
    · obtain ⟨d, hd, hdc⟩ := lt_iff_exists_next?.1 (not_le.1 hc)
      rw [hd, Option.all_some, decide_eq_true_eq] at h
      exact .inr ⟨le_trans h hdc, h₂.resolve_left hc⟩
  · rintro (⟨h₁, h₂⟩ | ⟨h₁, h₂⟩)
    · exact ⟨h₁, .inl h₂⟩
    · exact ⟨le_trans hlo h₁, .inr h₂⟩

theorem holds_mergeFrom {is : List Interval} {i : Interval} {c : Char}
    (h : (i :: is).Pairwise (fun a b => a.lo ≤ b.lo)) :
    Holds (mergeFrom i is) c ↔ i.contains c = true ∨ Holds is c := by
  induction is generalizing i with
  | nil => simp [mergeFrom, Holds]
  | cons j rest ih =>
    obtain ⟨hi, hj⟩ := List.pairwise_cons.1 h
    have hij : i.lo ≤ j.lo := hi j List.mem_cons_self
    unfold mergeFrom
    split
    · rename_i hnext
      rw [ih, contains_extend hij hnext, holds_cons, or_assoc]
      refine List.pairwise_cons.2 ⟨fun x hx => ?_, (List.pairwise_cons.1 hj).2⟩
      exact hi x (List.mem_cons_of_mem _ hx)
    · rw [holds_cons, ih hj, holds_cons]

theorem notAfter_iff {i j : Interval} :
    i.notAfter j = true ↔ i.lo < j.lo ∨ i.lo = j.lo ∧ i.hi ≤ j.hi := by
  simp [Interval.notAfter]

/-- Merging intervals changes none of the characters that they hold. -/
theorem holds_merge {is : List Interval} {c : Char} : Holds (merge is) c ↔ Holds is c := by
  have hperm := List.mergeSort_perm is Interval.notAfter
  have hsorted : (is.mergeSort Interval.notAfter).Pairwise (fun a b => a.lo ≤ b.lo) := by
    refine (List.pairwise_mergeSort (fun a b d => ?_) (fun a b => ?_) is).imp fun {a b} hab => ?_
    · simp only [notAfter_iff]
      grind
    · rw [Bool.or_eq_true, notAfter_iff, notAfter_iff]
      grind
    · rcases notAfter_iff.1 hab with hlt | ⟨he, -⟩
      · exact le_of_lt hlt
      · exact le_of_eq he
  have hmem : Holds (is.mergeSort Interval.notAfter) c ↔ Holds is c := by
    simp only [Holds, hperm.mem_iff]
  rw [← hmem]
  unfold merge
  split
  · rename_i hnil; rw [hnil]
  · rename_i i rest hcons
    rw [hcons] at hsorted ⊢
    rw [holds_mergeFrom hsorted, holds_cons]

/-! ## The class of the other characters -/

/-- Outside all intervals the cofinite labels read a character and no others do. -/
theorem reads_eq_isCofinite {labels : List Label} {c : Char} (hc : ¬ Holds (regionOf labels) c)
    {l : Label} (hl : l ∈ labels) : l.reads c = l.isCofinite := by
  have hnone : l.intervals.any (·.contains c) = false := by
    rw [Bool.eq_false_iff]
    intro h
    obtain ⟨i, hi, hic⟩ := List.any_eq_true.1 h
    exact hc ⟨i, List.mem_flatMap.2 ⟨l, hl, hi⟩, hic⟩
  rw [Label.reads_eq_any, hnone, Bool.xor_false]

/-- The positions of the cofinite labels. -/
abbrev cofinitePositions (labels : List Label) : IndexSet :=
  .positions Label.isCofinite labels

theorem readers_eq_cofinitePositions {labels : List Label} {c : Char}
    (hc : ¬ Holds (regionOf labels) c) :
    readers labels c = cofinitePositions labels := by
  refine OrderedSet.ext fun i => ?_
  rw [IndexSet.mem_positions, IndexSet.mem_positions]
  refine exists_congr fun l => and_congr_right fun hl => ?_
  rw [reads_eq_isCofinite hc (List.mem_of_getElem? hl)]

theorem isEmpty_cofinitePositions {labels : List Label} :
    (cofinitePositions labels).isEmpty = true ↔ ∀ l ∈ labels, l.isCofinite = false := by
  rw [OrderedSet.isEmpty_eq_true_iff]
  simp only [IndexSet.mem_positions, List.mem_iff_getElem?]
  grind

/-- The last class is there where some label is cofinite, and reads what no interval holds. -/
theorem cofiniteClass_eq (labels : List Label) :
    ((cofinitePositions labels).isEmpty = true ∧ cofiniteClass labels (regionOf labels) = []) ∨
    ((cofinitePositions labels).isEmpty = false ∧ ∃ k : CharClass,
      cofiniteClass labels (regionOf labels) = [k] ∧ k.label.isCofinite = true ∧
      k.members = cofinitePositions labels ∧
      ∀ c, k.label.reads c = true ↔ ¬ Holds (regionOf labels) c) := by
  cases hempty : (cofinitePositions labels).isEmpty with
  | true =>
    refine .inl ⟨rfl, ?_⟩
    rw [cofiniteClass, if_pos hempty]
  | false =>
    have hne : ¬ (cofinitePositions labels).isEmpty = true := Bool.eq_false_iff.1 hempty
    refine .inr ⟨rfl, _, by rw [cofiniteClass, if_neg hne], ?_, rfl, fun c => ?_⟩
    · dsimp only
      split <;> rfl
    · dsimp only
      split
      · rename_i hnil
        rw [List.isEmpty_iff] at hnil
        simp [Label.reads, hnil, Holds]
      · rw [← holds_merge]
        simp [Label.reads, Holds]

/-! ## Exactness -/

/-- The classes inside the intervals of the labels. -/
abbrev finiteClasses (labels : List Label) : List CharClass :=
  (joinBands (bandsOf labels)).map fun b => ⟨intervalLabel b.interval, b.members⟩

theorem partition_eq (labels : List Label) :
    partition labels = finiteClasses labels ++ cofiniteClass labels (regionOf labels) := rfl

theorem filter_finiteClasses (labels : List Label) (c : Char) :
    ((finiteClasses labels).filter (·.label.reads c)).map (·.members) =
      ((joinBands (bandsOf labels)).filter (·.interval.contains c)).map (·.members) := by
  simp only [List.filter_map, List.map_map, Function.comp_def, reads_intervalLabel]

/-- The finite classes that read a character: one with its readers, where an interval holds the
character and some label reads it. -/
theorem members_finiteClasses (labels : List Label) (c : Char) :
    (Holds (regionOf labels) c ∧ (readers labels c).isEmpty = false ∧
      ((finiteClasses labels).filter (·.label.reads c)).map (·.members) = [readers labels c]) ∨
    ((Holds (regionOf labels) c → (readers labels c).isEmpty = true) ∧
      ((finiteClasses labels).filter (·.label.reads c)).map (·.members) = []) := by
  obtain ⟨hord, hcov, -⟩ := joinOf_joinBands (orderly_bandsOf labels)
  rw [filter_finiteClasses]
  by_cases h : Holds (regionOf labels) c ∧ (readers labels c).isEmpty = false
  · refine .inl ⟨h.1, h.2, hord.members_filter_eq ((hcov _ _).2 ?_)⟩
    exact covers_bandsOf.2 ⟨h.1, h.2, rfl⟩
  · refine .inr ⟨fun hr => ?_, ?_⟩
    · by_contra hne
      exact h ⟨hr, Bool.eq_false_iff.2 hne⟩
    · rw [List.map_eq_nil_iff, List.filter_eq_nil_iff]
      intro b hb hc
      obtain ⟨hr, hne, -⟩ := covers_bandsOf.1 ((hcov c b.members).1 ⟨b, hb, hc, rfl⟩)
      exact h ⟨hr, hne⟩

/-- The classes that read a character: one with its readers, where some label reads it. -/
theorem members_filter_partition (labels : List Label) (c : Char) :
    ((partition labels).filter (·.label.reads c)).map (·.members) =
      if (readers labels c).isEmpty then [] else [readers labels c] := by
  rw [partition_eq, List.filter_append, List.map_append]
  by_cases hr : Holds (regionOf labels) c
  · -- the last class reads nothing that an interval holds
    have hrest : (cofiniteClass labels (regionOf labels)).filter (·.label.reads c) = [] := by
      rcases cofiniteClass_eq labels with ⟨-, h⟩ | ⟨-, k, h, -, -, hk⟩
      · rw [h, List.filter_nil]
      · rw [h, List.filter_eq_nil_iff]
        intro x hx
        rw [List.mem_singleton.1 hx, hk]
        exact not_not.2 hr
    rw [hrest, List.map_nil, List.append_nil]
    rcases members_finiteClasses labels c with ⟨-, hne, h⟩ | ⟨hne, h⟩
    · rw [h, hne, if_neg Bool.false_ne_true]
    · rw [h, if_pos (hne hr)]
  · have hfinite : ((finiteClasses labels).filter (·.label.reads c)).map (·.members) = [] := by
      rcases members_finiteClasses labels c with ⟨hr', -⟩ | ⟨-, h⟩
      · exact absurd hr' hr
      · exact h
    rw [hfinite, List.nil_append, readers_eq_cofinitePositions hr]
    rcases cofiniteClass_eq labels with ⟨hempty, h⟩ | ⟨hempty, k, h, -, hm, hk⟩
    · rw [h, hempty, if_pos rfl, List.filter_nil, List.map_nil]
    · rw [h, hempty, if_neg Bool.false_ne_true, List.filter_cons, if_pos ((hk c).2 hr),
        List.filter_nil, List.map_singleton, hm]

theorem toList_readers (labels : List Label) (c : Char) : (readers labels c).toList =
    (List.range labels.length).filter fun i => labels[i]?.any (·.reads c) := by
  refine OrderedSet.eq_of_pairwise (readers labels c).increasing
    (List.pairwise_lt_range.filter _) fun i => ?_
  rw [← OrderedSet.mem_iff, IndexSet.mem_positions, List.mem_filter, List.mem_range,
    Option.any_eq_true_iff_get]
  simp only [List.getElem?_eq_some_iff]
  grind

theorem intervals_intervalLabel (i : Interval) : (intervalLabel i).intervals = [i] := by
  unfold intervalLabel
  split
  · rename_i h
    simp only [Label.intervals, Interval.single, List.cons.injEq, and_true]
    exact congrArg (Interval.mk i.lo) h.1
  · rfl

/-- Between the ends of two intervals that follow each other there is a character, unless the
second starts where the first one's next character is. -/
theorem next?_eq_some_of_apart {p q : Char} (h : p < q) (hnone : ∀ c, ¬ (p < c ∧ c < q)) :
    next? p = some q := by
  cases hn : next? p with
  | none => exact absurd h (not_lt.2 (next?_eq_none_iff.1 hn ▸ le_lastChar q))
  | some d =>
    have hle : d ≤ q := (le_of_next? hn).2 h
    have hnot : ¬ d < q := fun hlt => hnone d ⟨lt_of_next? hn, hlt⟩
    rw [le_antisymm hle (not_lt.1 hnot)]

/-- The finite classes are in increasing order, and neighbours have different members. -/
theorem pairwise_finiteClasses (labels : List Label) :
    (finiteClasses labels).Pairwise fun a b => ∀ i j : Interval,
      a.label.intervals = [i] → b.label.intervals = [j] →
        i.hi < j.lo ∧ ((∀ c, ¬ (i.hi < c ∧ c < j.lo)) → a.members ≠ b.members) := by
  obtain ⟨hord, -, hparted⟩ := joinOf_joinBands (orderly_bandsOf labels)
  refine List.pairwise_map.2 ((hord.sorted.and hparted).imp fun {a b} hab i j hi hj => ?_)
  rw [intervals_intervalLabel, List.cons.injEq] at hi hj
  obtain ⟨rfl, -⟩ := hi
  obtain ⟨rfl, -⟩ := hj
  exact ⟨hab.1, fun hnone => hab.2 (next?_eq_some_of_apart hab.1 hnone)⟩

/-- The partition is exact. A character that no label reads is in no class; any other one is in
exactly one class, whose members are the positions of the labels that read it. The finite classes
are intervals in increasing order, and two of them with no character between have different
members. Behind them stands one cofinite class exactly where some label is cofinite. -/
theorem partition_exact (labels : List Label) :
    (∀ c : Char,
      let matching := (List.range labels.length).filter fun i => labels[i]?.any (·.reads c)
      ((partition labels).filter (·.label.reads c)).map (·.members.toList) =
        if matching = [] then [] else [matching]) ∧
    ∃ finite rest : List CharClass, partition labels = finite ++ rest ∧
      (∀ k ∈ finite, k.label.isCofinite = false ∧
        ∃ i : Interval, k.label.intervals = [i] ∧ i.lo ≤ i.hi) ∧
      finite.Pairwise (fun a b => ∀ i j : Interval,
        a.label.intervals = [i] → b.label.intervals = [j] →
          i.hi < j.lo ∧ ((∀ c, ¬ (i.hi < c ∧ c < j.lo)) → a.members ≠ b.members)) ∧
      ((∃ l ∈ labels, l.isCofinite = true) → ∃ k, rest = [k] ∧ k.label.isCofinite = true) ∧
      ((∀ l ∈ labels, l.isCofinite = false) → rest = []) := by
  obtain ⟨hord, -, -⟩ := joinOf_joinBands (orderly_bandsOf labels)
  refine ⟨fun c => ?_, finiteClasses labels, cofiniteClass labels (regionOf labels),
    partition_eq labels, ?_, pairwise_finiteClasses labels, ?_, ?_⟩
  · have h := congrArg (List.map OrderedSet.toList) (members_filter_partition labels c)
    rw [List.map_map] at h
    dsimp only
    rw [← toList_readers]
    refine Eq.trans h ?_
    simp only [OrderedSet.isEmpty, List.isEmpty_iff]
    split <;> rfl
  · intro k hk
    obtain ⟨b, hb, rfl⟩ := List.mem_map.1 hk
    exact ⟨isCofinite_intervalLabel _, b.interval, intervals_intervalLabel _, hord.proper b hb⟩
  · rintro ⟨l, hl, hcof⟩
    rcases cofiniteClass_eq labels with ⟨hempty, -⟩ | ⟨-, k, h, hk, -, -⟩
    · rw [isEmpty_cofinitePositions.1 hempty l hl] at hcof
      cases hcof
    · exact ⟨k, h, hk⟩
  · intro hall
    rcases cofiniteClass_eq labels with ⟨-, h⟩ | ⟨hempty, -⟩
    · exact h
    · rw [isEmpty_cofinitePositions.2 hall] at hempty
      cases hempty

end CharClass

end Acceptor
