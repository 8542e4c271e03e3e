/-
Finite sets over a linear order, kept as the increasing list of their members. Main statements:
sets with the same members are equal (`ext`), and what the members of the sets built here are
(`mem_union`, `mem_insert`, `mem_ofList`).
-/

namespace Acceptor

/-- A finite set, as the increasing list of its members. -/
structure OrderedSet (α : Type) [LT α] where
  toList : List α
  increasing : toList.Pairwise (· < ·)
deriving DecidableEq

namespace OrderedSet

variable {α : Type} [LT α] [LE α] [DecidableLT α] [Std.IsLinearOrder α] [Std.LawfulOrderLT α]

instance : Membership α (OrderedSet α) :=
  ⟨fun s a => a ∈ s.toList⟩

instance [DecidableEq α] (a : α) (s : OrderedSet α) : Decidable (a ∈ s) :=
  inferInstanceAs (Decidable (a ∈ s.toList))

/-! ## Merging increasing lists -/

/-- Merges `a` and what `merge` makes of the members after it into an increasing list. -/
def mergeHead (a : α) (merge : List α → List α) : List α → List α
  | [] => a :: merge []
  | b :: rest =>
    if a < b then a :: merge (b :: rest)
    else if b < a then b :: mergeHead a merge rest
    else a :: merge rest

/-- The members of either of two increasing lists, in increasing order and without repeats. -/
def mergeLists : List α → List α → List α
  | [], ys => ys
  | a :: xs, ys => mergeHead a (fun zs => mergeLists xs zs) ys

omit [DecidableLT α] in
theorem eq_of_not_lt {a b : α} (h₁ : ¬ a < b) (h₂ : ¬ b < a) : a = b :=
  Std.le_antisymm (Std.not_lt.1 h₂) (Std.not_lt.1 h₁)

theorem mem_mergeHead {a c : α} {xs : List α} {merge : List α → List α}
    (hm : ∀ zs, c ∈ merge zs ↔ c ∈ xs ∨ c ∈ zs) (ys : List α) :
    c ∈ mergeHead a merge ys ↔ c = a ∨ c ∈ xs ∨ c ∈ ys := by
  induction ys with
  | nil => simp [mergeHead, hm]
  | cons b rest ih =>
    unfold mergeHead
    split
    · simp [hm]
    · rename_i h₁
      split
      · simp only [List.mem_cons, ih]
        grind
      · rename_i h₂
        obtain rfl := eq_of_not_lt h₁ h₂
        simp only [List.mem_cons, hm]
        grind

theorem mem_mergeLists {c : α} (xs ys : List α) : c ∈ mergeLists xs ys ↔ c ∈ xs ∨ c ∈ ys := by
  induction xs generalizing ys with
  | nil => simp [mergeLists]
  | cons a xs ih =>
    rw [mergeLists, mem_mergeHead ih]
    simp [or_assoc]

theorem pairwise_mergeHead {a : α} {xs : List α} {merge : List α → List α}
    (hx : (a :: xs).Pairwise (· < ·)) (hmem : ∀ zs c, c ∈ merge zs ↔ c ∈ xs ∨ c ∈ zs)
    (hm : ∀ zs, zs.Pairwise (· < ·) → (merge zs).Pairwise (· < ·)) (ys : List α)
    (hy : ys.Pairwise (· < ·)) : (mergeHead a merge ys).Pairwise (· < ·) := by
  rw [List.pairwise_cons] at hx
  induction ys with
  | nil =>
    refine List.pairwise_cons.2 ⟨fun c hc => ?_, hm [] .nil⟩
    simpa using hx.1 c (by simpa [hmem] using hc)
  | cons b rest ih =>
    rw [List.pairwise_cons] at hy
    unfold mergeHead
    split
    · rename_i hab
      refine List.pairwise_cons.2 ⟨fun c hc => ?_, hm _ (List.pairwise_cons.2 hy)⟩
      rcases (hmem _ c).1 hc with hc | hc
      · exact hx.1 c hc
      · rcases List.mem_cons.1 hc with rfl | hc
        · exact hab
        · exact Std.lt_trans hab (hy.1 c hc)
    · rename_i h₁
      split
      · rename_i hba
        refine List.pairwise_cons.2 ⟨fun c hc => ?_, ih hy.2⟩
        rcases (mem_mergeHead (fun zs => hmem zs c) rest).1 hc with rfl | hc | hc
        · exact hba
        · exact Std.lt_trans hba (hx.1 c hc)
        · exact hy.1 c hc
      · rename_i h₂
        obtain rfl := eq_of_not_lt h₁ h₂
        refine List.pairwise_cons.2 ⟨fun c hc => ?_, hm rest hy.2⟩
        rcases (hmem _ c).1 hc with hc | hc
        · exact hx.1 c hc
        · exact hy.1 c hc

theorem pairwise_mergeLists {xs ys : List α} (hx : xs.Pairwise (· < ·))
    (hy : ys.Pairwise (· < ·)) : (mergeLists xs ys).Pairwise (· < ·) := by
  induction xs generalizing ys with
  | nil => exact hy
  | cons a xs ih =>
    exact pairwise_mergeHead hx (fun zs _ => mem_mergeLists xs zs)
      (fun _ hz => ih (List.pairwise_cons.1 hx).2 hz) ys hy

/-! ## Operations -/

/-- The set without members. -/
def empty : OrderedSet α := ⟨[], .nil⟩

def isEmpty (s : OrderedSet α) : Bool :=
  s.toList.isEmpty

def size (s : OrderedSet α) : Nat :=
  s.toList.length

/-- Whether some member has a property. -/
def any (s : OrderedSet α) (q : α → Bool) : Bool :=
  s.toList.any q

/-- The set of one member. -/
def singleton (a : α) : OrderedSet α := ⟨[a], List.pairwise_singleton _ a⟩

/-- The members of either set. -/
def union (s t : OrderedSet α) : OrderedSet α :=
  ⟨mergeLists s.toList t.toList, pairwise_mergeLists s.increasing t.increasing⟩

/-- The set with one more member. -/
def insert (a : α) (s : OrderedSet α) : OrderedSet α :=
  (singleton a).union s

/-- The set of the members of a list. -/
def ofList (xs : List α) : OrderedSet α :=
  xs.foldr insert empty

omit [LE α] [DecidableLT α] [Std.IsLinearOrder α] [Std.LawfulOrderLT α] in
theorem mem_iff {a : α} {s : OrderedSet α} : a ∈ s ↔ a ∈ s.toList := Iff.rfl

omit [LE α] [DecidableLT α] [Std.IsLinearOrder α] [Std.LawfulOrderLT α] in
theorem any_eq_true_iff {s : OrderedSet α} {q : α → Bool} :
    s.any q = true ↔ ∃ a ∈ s, q a = true := by
  simp [any, mem_iff]

omit [LE α] [DecidableLT α] [Std.IsLinearOrder α] [Std.LawfulOrderLT α] in
theorem isEmpty_eq_true_iff {s : OrderedSet α} : s.isEmpty = true ↔ ∀ a, ¬ a ∈ s := by
  simp [isEmpty, mem_iff, List.eq_nil_iff_forall_not_mem]

omit [LE α] [DecidableLT α] [Std.IsLinearOrder α] [Std.LawfulOrderLT α] in
theorem isEmpty_eq_false_iff {s : OrderedSet α} : s.isEmpty = false ↔ ∃ a, a ∈ s :=
  List.isEmpty_eq_false_iff_exists_mem

omit [LE α] [DecidableLT α] [Std.IsLinearOrder α] [Std.LawfulOrderLT α] in
@[simp] theorem not_mem_empty (a : α) : ¬ a ∈ (empty : OrderedSet α) := by
  simp [mem_iff, empty]

omit [LE α] [DecidableLT α] [Std.IsLinearOrder α] [Std.LawfulOrderLT α] in
@[simp] theorem mem_singleton {a b : α} : a ∈ singleton b ↔ a = b := by
  simp [mem_iff, singleton]

omit [LE α] [DecidableLT α] [Std.IsLinearOrder α] [Std.LawfulOrderLT α] in
theorem singleton_inj {a b : α} : singleton a = singleton b ↔ a = b := by
  simp [singleton]

omit [LE α] [DecidableLT α] [Std.IsLinearOrder α] [Std.LawfulOrderLT α] in
theorem singleton_ne_empty (a : α) : singleton a ≠ empty :=
  fun h => not_mem_empty a (h ▸ mem_singleton.2 rfl)

omit [LE α] [DecidableLT α] [Std.IsLinearOrder α] [Std.LawfulOrderLT α] in
theorem eq_empty_of_isEmpty {s : OrderedSet α} (h : s.isEmpty = true) : s = empty := by
  obtain ⟨xs, hxs⟩ := s
  obtain rfl : xs = [] := List.isEmpty_iff.1 h
  rfl

omit [LE α] [DecidableLT α] [Std.IsLinearOrder α] [Std.LawfulOrderLT α] in
theorem exists_eq_singleton {s : OrderedSet α} (h : s.size = 1) : ∃ a, s = singleton a := by
  obtain ⟨xs, hxs⟩ := s
  obtain ⟨a, rfl⟩ := List.length_eq_one_iff.1 h
  exact ⟨a, rfl⟩

@[simp] theorem mem_union {a : α} {s t : OrderedSet α} : a ∈ s.union t ↔ a ∈ s ∨ a ∈ t :=
  mem_mergeLists s.toList t.toList

@[simp] theorem mem_insert {a b : α} {s : OrderedSet α} : a ∈ s.insert b ↔ a = b ∨ a ∈ s := by
  simp [insert]

@[simp] theorem mem_ofList {a : α} {xs : List α} : a ∈ ofList xs ↔ a ∈ xs := by
  induction xs with
  | nil => simp [ofList]
  | cons b xs ih => simp [ofList, ← ih]

omit [DecidableLT α] in
theorem eq_of_pairwise {xs ys : List α} (hx : xs.Pairwise (· < ·)) (hy : ys.Pairwise (· < ·))
    (h : ∀ a, a ∈ xs ↔ a ∈ ys) : xs = ys := by
  induction xs generalizing ys with
  | nil =>
    cases ys with
    | nil => rfl
    | cons b ys => simpa using h b
  | cons a xs ih =>
    cases ys with
    | nil => simpa using h a
    | cons b ys =>
      rw [List.pairwise_cons] at hx hy
      have hab : a = b := by
        rcases List.mem_cons.1 ((h a).1 List.mem_cons_self) with hab | ha
        · exact hab
        rcases List.mem_cons.1 ((h b).2 List.mem_cons_self) with hab | hb
        · exact hab.symm
        exact absurd (Std.lt_trans (hx.1 b hb) (hy.1 a ha)) Std.lt_irrefl
      subst hab
      congr 1
      refine ih hx.2 hy.2 fun c => ⟨fun hc => ?_, fun hc => ?_⟩
      · rcases List.mem_cons.1 ((h c).1 (List.mem_cons_of_mem _ hc)) with rfl | hc'
        · exact absurd (hx.1 c hc) Std.lt_irrefl
        · exact hc'
      · rcases List.mem_cons.1 ((h c).2 (List.mem_cons_of_mem _ hc)) with rfl | hc'
        · exact absurd (hy.1 c hc) Std.lt_irrefl
        · exact hc'

omit [DecidableLT α] in
/-- Sets with the same members are equal. -/
theorem ext {s t : OrderedSet α} (h : ∀ a, a ∈ s ↔ a ∈ t) : s = t := by
  have := eq_of_pairwise s.increasing t.increasing h
  cases s
  cases t
  simpa using this

/-- A set is made from its own members. -/
theorem ofList_toList (s : OrderedSet α) : ofList s.toList = s :=
  ext fun _ => mem_ofList

end OrderedSet

end Acceptor
