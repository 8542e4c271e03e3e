/-
The labels of the classes of a partition. Main statements: a character is read by one class at
most, whose members are the labels that read it (`of_reads`), two classes with one label are the
same (`eq_of_reads_eq`), each class has one member where the labels have nothing in common
(`size_members_eq_one`), and the labels are well formed where those of the partition are
(`wellFormed_of_mem_partition`).
-/
import Acceptor.Proofs.CharClass.Partition
import Acceptor.Proofs.Label.Text

namespace Acceptor

namespace CharClass

variable {labels : List Label} {k k' : CharClass} {c : Char}

/-! ## What tells classes apart -/

theorem mem_finite_or_cofinite (h : k ∈ partition labels) :
    (∃ b ∈ joinBands (bandsOf labels), k = ⟨intervalLabel b.interval, b.members⟩) ∨
      k ∈ cofiniteClass labels (regionOf labels) := by
  rw [partition_eq] at h
  refine (List.mem_append.1 h).imp_left fun h => ?_
  obtain ⟨b, hb, he⟩ := List.mem_map.1 h
  exact ⟨b, hb, he.symm⟩

/-- A class that reads a character is the only one, and its members are the labels that read it. -/
theorem of_reads (hk : k ∈ partition labels) (hc : k.label.reads c = true) :
    k.members = readers labels c ∧
      ∀ k' ∈ partition labels, k'.label.reads c = true → k' = k := by
  have hfilter := members_filter_partition labels c
  have hmem : k ∈ (partition labels).filter (·.label.reads c) := List.mem_filter.2 ⟨hk, hc⟩
  split at hfilter
  · rw [List.map_eq_nil_iff.1 hfilter] at hmem
    cases hmem
  · obtain ⟨x, hx, hmembers⟩ := List.map_eq_singleton_iff.1 hfilter
    rw [hx, List.mem_singleton] at hmem
    subst hmem
    refine ⟨hmembers, fun k' hk' hc' => ?_⟩
    have hmem' : k' ∈ (partition labels).filter (·.label.reads c) := List.mem_filter.2 ⟨hk', hc'⟩
    rwa [hx, List.mem_singleton] at hmem'

/-- A character that some label reads is read by a class. -/
theorem exists_reads (hc : (readers labels c).isEmpty = false) :
    ∃ k ∈ partition labels, k.label.reads c = true := by
  have hfilter := members_filter_partition labels c
  rw [hc, if_neg Bool.false_ne_true] at hfilter
  obtain ⟨x, hx, -⟩ := List.map_eq_singleton_iff.1 hfilter
  have hmem : x ∈ (partition labels).filter (·.label.reads c) := by
    rw [hx]
    exact List.mem_cons_self
  exact ⟨x, List.mem_filter.1 hmem⟩

theorem isCofinite_of_mem (h : k ∈ cofiniteClass labels (regionOf labels)) :
    k.label.isCofinite = true ∧ cofiniteClass labels (regionOf labels) = [k] := by
  rcases cofiniteClass_eq labels with ⟨-, he⟩ | ⟨-, x, he, hx, -, -⟩
  · rw [he] at h
    cases h
  · rw [he, List.mem_singleton] at h
    subst h
    exact ⟨hx, he⟩

/-- At most one class is cofinite. -/
theorem eq_of_isCofinite (hk : k ∈ partition labels) (hk' : k' ∈ partition labels)
    (hc : k.label.isCofinite = true) (hc' : k'.label.isCofinite = true) : k = k' := by
  have hmem : ∀ x ∈ partition labels, x.label.isCofinite = true →
      x ∈ cofiniteClass labels (regionOf labels) := by
    intro x hx hcof
    refine (mem_finite_or_cofinite hx).resolve_left ?_
    rintro ⟨b, -, rfl⟩
    rw [isCofinite_intervalLabel] at hcof
    cases hcof
  have hmem' := hmem k' hk' hc'
  rw [(isCofinite_of_mem (hmem k hk hc)).2, List.mem_singleton] at hmem'
  exact hmem'.symm

/-- Classes that read the same characters, with labels of one kind, are the same. -/
theorem eq_of_reads_eq (hk : k ∈ partition labels) (hk' : k' ∈ partition labels)
    (hkind : k'.label.isCofinite = k.label.isCofinite)
    (hreads : ∀ c, k'.label.reads c = k.label.reads c) : k' = k := by
  rcases mem_finite_or_cofinite hk with ⟨b, hb, rfl⟩ | hcof
  · -- the first character of an interval is read by one class only
    obtain ⟨hord, -, -⟩ := joinOf_joinBands (orderly_bandsOf labels)
    have hlo : (intervalLabel b.interval).reads b.interval.lo = true := by
      rw [reads_intervalLabel]
      exact Interval.contains_eq_true_iff.2 ⟨le_refl _, hord.proper b hb⟩
    exact (of_reads hk hlo).2 k' hk' ((hreads _).trans hlo)
  · have hcofinite := (isCofinite_of_mem hcof).1
    exact eq_of_isCofinite hk' hk (hkind.trans hcofinite) hcofinite

/-- A class has members: the labels that read some character, or the cofinite labels. -/
theorem members_cases (hk : k ∈ partition labels) : k.members.isEmpty = false ∧
    ((∃ c, k.members = readers labels c) ∨ k.members = cofinitePositions labels) := by
  rcases mem_finite_or_cofinite hk with ⟨b, hb, rfl⟩ | hcof
  · obtain ⟨hord, hcov, -⟩ := joinOf_joinBands (orderly_bandsOf labels)
    have hlo : b.interval.contains b.interval.lo = true :=
      Interval.contains_eq_true_iff.2 ⟨le_refl _, hord.proper b hb⟩
    obtain ⟨-, hne, hmembers⟩ := covers_bandsOf.1 ((hcov _ _).1 ⟨b, hb, hlo, rfl⟩)
    rw [hmembers]
    exact ⟨hne, .inl ⟨_, rfl⟩⟩
  · rcases cofiniteClass_eq labels with ⟨-, he⟩ | ⟨hne, x, he, -, hmembers, -⟩
    · rw [he] at hcof
      cases hcof
    · rw [he, List.mem_singleton] at hcof
      rw [hcof, hmembers]
      exact ⟨hne, .inr rfl⟩

/-- The members of a class are positions of labels. -/
theorem lt_of_mem_members (hk : k ∈ partition labels) {m : Nat} (hm : m ∈ k.members) :
    m < labels.length := by
  have hlt : ∀ q : Label → Bool, m ∈ IndexSet.positions q labels → m < labels.length := by
    intro q hq
    obtain ⟨l, hl, -⟩ := IndexSet.mem_positions.1 hq
    exact (List.getElem?_eq_some_iff.1 hl).1
  rcases (members_cases hk).2 with ⟨c, hmembers⟩ | hmembers
  · exact hlt _ (hmembers ▸ hm)
  · exact hlt _ (hmembers ▸ hm)

/-- A class has one member where no two labels read the same character or are both cofinite. -/
theorem size_members_eq_one (hreads : ∀ c, ∀ m ∈ readers labels c, ∀ n ∈ readers labels c, m = n)
    (hcofinite : ∀ m ∈ cofinitePositions labels, ∀ n ∈ cofinitePositions labels, m = n)
    (hk : k ∈ partition labels) : k.members.size = 1 := by
  obtain ⟨hne, hmembers⟩ := members_cases hk
  have hunique : ∀ m ∈ k.members, ∀ n ∈ k.members, m = n := by
    rcases hmembers with ⟨c, hmembers⟩ | hmembers
    · rw [hmembers]
      exact hreads c
    · rw [hmembers]
      exact hcofinite
  obtain ⟨m, hm⟩ := OrderedSet.isEmpty_eq_false_iff.1 hne
  have hsingle : k.members = .singleton m := by
    refine OrderedSet.ext fun n => ?_
    rw [OrderedSet.mem_singleton]
    exact ⟨fun hn => hunique n hn m hm, fun he => he ▸ hm⟩
  rw [hsingle]
  rfl

/-- No class is there twice. -/
theorem nodup_partition (labels : List Label) : (partition labels).Nodup := by
  rw [partition_eq, List.nodup_append]
  refine ⟨?_, ?_, ?_⟩
  · obtain ⟨hord, -, -⟩ := joinOf_joinBands (orderly_bandsOf labels)
    refine List.pairwise_map.2 (hord.sorted.imp_of_mem fun {a b} ha _ hab he => ?_)
    -- classes that are the same have the same interval
    have hinterval := congrArg (fun k : CharClass => k.label.intervals) he
    simp only [intervals_intervalLabel, List.cons.injEq, and_true] at hinterval
    rw [← hinterval] at hab
    exact absurd hab (not_lt.2 (hord.proper a ha))
  · rcases cofiniteClass_eq labels with ⟨-, he⟩ | ⟨-, x, he, -⟩
    · rw [he]
      exact List.nodup_nil
    · rw [he]
      exact List.pairwise_singleton _ x
  · rintro a ha b hb rfl
    obtain ⟨band, -, rfl⟩ := List.mem_map.1 ha
    have hcofinite := (isCofinite_of_mem hb).1
    rw [isCofinite_intervalLabel] at hcofinite
    cases hcofinite

/-! ## Well-formed labels -/

theorem wellFormed_intervalLabel {i : Interval} (h : i.Proper) : (intervalLabel i).WellFormed := by
  unfold intervalLabel
  split
  · rename_i hread
    exact (Label.of_read?_eq_some hread.2).1
  · exact h

theorem proper_mergeFrom {i : Interval} {is : List Interval} (hi : i.Proper)
    (his : ∀ j ∈ is, j.Proper) : ∀ j ∈ mergeFrom i is, j.Proper := by
  induction is generalizing i with
  | nil => exact List.forall_mem_singleton.2 hi
  | cons j rest ih =>
    obtain ⟨hj, hrest⟩ := List.forall_mem_cons.1 his
    unfold mergeFrom
    split
    · refine ih ?_ hrest
      change i.lo ≤ if i.hi < j.hi then j.hi else i.hi
      split
      · rename_i hlt
        exact le_trans hi (le_of_lt hlt)
      · exact hi
    · exact List.forall_mem_cons.2 ⟨hi, ih hj hrest⟩

theorem mergeFrom_ne_nil {i : Interval} {is : List Interval} : mergeFrom i is ≠ [] := by
  induction is generalizing i with
  | nil => exact List.cons_ne_nil _ _
  | cons j rest ih =>
    unfold mergeFrom
    split
    · exact ih
    · exact List.cons_ne_nil _ _

theorem wellFormed_merge {is : List Interval} (hne : is ≠ []) (his : ∀ i ∈ is, i.Proper) :
    (Label.noneOf (merge is)).WellFormed := by
  have hperm := is.mergeSort_perm Interval.notAfter
  unfold merge
  split
  · rename_i hnil
    rw [hnil, List.nil_perm] at hperm
    exact absurd hperm hne
  · rename_i i rest hcons
    rw [hcons] at hperm
    have hall : ∀ j ∈ i :: rest, j.Proper := fun j hj => his j (hperm.mem_iff.1 hj)
    obtain ⟨hi, hrest⟩ := List.forall_mem_cons.1 hall
    exact ⟨mergeFrom_ne_nil, proper_mergeFrom hi hrest⟩

/-- The intervals of a well-formed label are proper. -/
theorem proper_of_wellFormed {l : Label} (hl : l.WellFormed) : ∀ i ∈ l.intervals, i.Proper := by
  cases l with
  | epsilon => exact List.forall_mem_nil _
  | any => exact List.forall_mem_nil _
  | literal char => exact List.forall_mem_singleton.2 (le_refl char)
  | range lo hi => exact List.forall_mem_singleton.2 hl
  | oneOf chars =>
    intro i hi
    obtain ⟨char, -, rfl⟩ := List.mem_map.1 hi
    exact le_refl char
  | noneOf is => exact hl.2

/-- A well-formed label that reads nearly all characters and excludes none reads all of them. -/
theorem eq_any_of_isCofinite {l : Label} (hl : l.WellFormed)
    (hcofinite : l.isCofinite = true) (hnil : l.intervals = []) : l = .any := by
  cases l with
  | any => rfl
  | noneOf is => exact absurd hnil hl.1
  | epsilon => cases hcofinite
  | literal => cases hcofinite
  | range => cases hcofinite
  | oneOf => cases hcofinite

/-- The last class reads any character where no interval excludes one, and only then. -/
theorem label_of_mem_cofinite (h : k ∈ cofiniteClass labels (regionOf labels)) :
    (k.label = .any ∧ regionOf labels = [] ∧ ∃ l ∈ labels, l.isCofinite = true) ∨
      k.label = .noneOf (merge (regionOf labels)) ∧ regionOf labels ≠ [] := by
  have hsome : ∃ l ∈ labels, l.isCofinite = true := by
    by_contra hnone
    have hall : ∀ l ∈ labels, l.isCofinite = false := fun l hl =>
      Bool.eq_false_iff.2 fun hcof => hnone ⟨l, hl, hcof⟩
    rcases cofiniteClass_eq labels with ⟨-, he⟩ | ⟨hne, -⟩
    · rw [he] at h
      cases h
    · rw [isEmpty_cofinitePositions.2 hall] at hne
      cases hne
  unfold cofiniteClass at h
  dsimp only at h
  split at h
  · cases h
  · rw [List.mem_singleton.1 h]
    dsimp only
    split
    · rename_i hnil
      exact .inl ⟨rfl, List.isEmpty_iff.1 hnil, hsome⟩
    · rename_i hne
      exact .inr ⟨rfl, fun he => hne (List.isEmpty_iff.2 he)⟩

/-- The labels of classes of well-formed labels are well formed. -/
theorem wellFormed_of_mem_partition (hl : ∀ l ∈ labels, l.WellFormed) (hk : k ∈ partition labels) :
    k.label.WellFormed := by
  rcases mem_finite_or_cofinite hk with ⟨b, hb, rfl⟩ | hcof
  · exact wellFormed_intervalLabel ((joinOf_joinBands (orderly_bandsOf labels)).1.proper b hb)
  · rcases label_of_mem_cofinite hcof with ⟨he, -⟩ | ⟨he, hne⟩
    · rw [he]
      trivial
    · rw [he]
      refine wellFormed_merge hne fun i hi => ?_
      obtain ⟨l, hm, hi⟩ := List.mem_flatMap.1 hi
      exact proper_of_wellFormed (hl l hm) i hi

end CharClass

end Acceptor
