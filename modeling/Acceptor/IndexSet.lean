/-
Sets of positions in a list, and unions of sets that are found one by one and may fail. Main
statements: what positions have a property (`mem_positions`), and what a union that is found
holds (`mem_of_gather`).
-/
import Acceptor.Error
import Acceptor.OrderedSet

namespace Acceptor

/-- A set of positions in a list. -/
abbrev IndexSet := OrderedSet Nat

namespace IndexSet

variable {α : Type}

/-- The positions of the entries with a property. -/
def positions (q : α → Bool) (xs : List α) : IndexSet :=
  .ofList (xs.zipIdx.filterMap fun x => if q x.1 then some x.2 else none)

theorem mem_positions {q : α → Bool} {xs : List α} {i : Nat} :
    i ∈ positions q xs ↔ ∃ x, xs[i]? = some x ∧ q x = true := by
  simp only [positions, OrderedSet.mem_ofList, List.mem_filterMap, Option.ite_none_right_eq_some,
    Option.some.injEq, Prod.exists, List.mem_zipIdx_iff_getElem?]
  grind

/-- The union of the sets found for the entries of a list, or the first fault. -/
def gather (find : α → Except Error IndexSet) : List α → Except Error IndexSet
  | [] => .ok .empty
  | x :: xs => do
    let s ← find x
    let rest ← gather find xs
    return s.union rest

theorem gather_cons_eq_ok_iff {find : α → Except Error IndexSet} {x : α} {xs : List α}
    {s : IndexSet} : gather find (x :: xs) = .ok s ↔
      ∃ r rest, find x = .ok r ∧ gather find xs = .ok rest ∧ s = r.union rest := by
  cases hx : find x with
  | error e => simp [gather, hx, bind, Except.bind]
  | ok r =>
    cases hrest : gather find xs with
    | error e => simp [gather, hx, hrest, bind, Except.bind]
    | ok rest => simp [gather, hx, hrest, bind, Except.bind, pure, Except.pure, eq_comm]

/-- A union is found where each of its sets is. -/
theorem exists_gather {find : α → Except Error IndexSet} {xs : List α}
    (h : ∀ x ∈ xs, ∃ r, find x = .ok r) : ∃ s, gather find xs = .ok s := by
  induction xs with
  | nil => exact ⟨_, rfl⟩
  | cons x xs ih =>
    obtain ⟨r, hr⟩ := h x List.mem_cons_self
    obtain ⟨rest, hrest⟩ := ih fun y hy => h y (List.mem_cons_of_mem x hy)
    exact ⟨_, gather_cons_eq_ok_iff.2 ⟨r, rest, hr, hrest, rfl⟩⟩

/-- A union that is found holds what the sets hold that are found for the entries. -/
theorem mem_of_gather {find : α → Except Error IndexSet} {xs : List α} {s : IndexSet}
    (h : gather find xs = .ok s) {i : Nat} :
    i ∈ s ↔ ∃ x ∈ xs, ∃ r, find x = .ok r ∧ i ∈ r := by
  induction xs generalizing s with
  | nil =>
    cases h
    simp
  | cons x xs ih =>
    obtain ⟨r, rest, hr, hrest, rfl⟩ := gather_cons_eq_ok_iff.1 h
    simp [hr, ih hrest]

end IndexSet

end Acceptor
