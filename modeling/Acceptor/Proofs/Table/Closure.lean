/-
What a state of a valid table reaches without reading. Main statements: the closures of a valid
table are found (`Valid.exists_closures`), and so is what any of some states reaches
(`Closes.finds_ofSet`).
-/
import Acceptor.Proofs.Table.Search

namespace Acceptor

namespace Table

variable {t : Table} {c : Closures} {i j k : Nat}

/-- A state is reached from another without reading. -/
abbrev Reaches (t : Table) (i j : Nat) : Prop := t.arrows.Silent i j

theorem Reaches.lt (h : t.Reaches i j) (hi : i < t.size) : j < t.size := by
  cases Relation.ReflTransGen.cases_tail (Arrows.silent_iff.1 h) with
  | inl he => exact he ▸ hi
  | inr hm => exact (arrows_nil_iff.1 hm.choose_spec.2).lt.2

/-- Where nothing is stored for the marker, only a state itself is reached. -/
theorem eq_of_reaches (hm : ∀ state, t.targets state t.marker = []) (h : t.Reaches i j) :
    i = j := by
  cases Relation.ReflTransGen.cases_head (Arrows.silent_iff.1 h) with
  | inl he => exact he
  | inr hstep =>
    obtain ⟨k, hik, -⟩ := hstep
    obtain ⟨p, q, -, hq, -⟩ := arrows_nil_iff.1 hik
    rw [hm] at hq
    cases hq

/-- Where nothing is stored for the marker, each character is read at once. -/
theorem path_cons_iff (hm : ∀ state, t.targets state t.marker = []) {char : Char} {w : List Char} :
    t.arrows.Path i (char :: w) k ↔ ∃ j, t.Reads i char j ∧ t.arrows.Path j w k := by
  rw [Arrows.path_cons_iff slow_arrows]
  constructor
  · rintro ⟨i', j, hs, hr, hp⟩
    obtain rfl := eq_of_reaches hm hs
    exact ⟨j, arrows_singleton_iff.1 hr, hp⟩
  · rintro ⟨j, hr, hp⟩
    exact ⟨i, j, .nil, arrows_singleton_iff.2 hr, hp⟩

/-- Names that are not shared by states lead to the states that follow. -/
theorem Valid.silentlyReaches_iff (hv : t.Valid) : t.SilentlyReaches i j ↔ t.Reaches i j := by
  simp only [SilentlyReaches, Reaches, Arrows.silent_iff, hv.enters_iff, arrows_nil_iff]

/-- The closures of the states of a table. -/
structure Closes (c : Closures) (t : Table) : Prop where
  size_eq : c.size = t.size
  mem_iff : ∀ i s, c.sets[i]? = some s → ∀ j, j ∈ s ↔ t.Reaches i j

/-- The closures of a valid table are found. -/
theorem Valid.exists_closures (hv : t.Valid) : ∃ c, t.closures = .ok c ∧ Closes c t := by
  obtain ⟨-, c, hc, hsize, hof⟩ | ⟨⟨i, hmissing⟩, -⟩ := t.closures_cases
  · refine ⟨c, hc, hsize, fun i s hs j => ?_⟩
    have hi : i < t.size := hsize ▸ (List.getElem?_eq_some_iff.1 hs).1
    exact ((hof i hi).mem_iff (entry_eq_ok_iff.2 hs) j).trans hv.silentlyReaches_iff
  · exact absurd hmissing (hv.not_misnames i _)

theorem Closes.finds_of (hc : Closes c t) (hi : i < t.size) : Finds (c.of i) (t.Reaches i) := by
  have hlt : i < c.sets.length := Nat.lt_of_lt_of_eq hi hc.size_eq.symm
  have hs := List.getElem?_eq_getElem hlt
  exact ⟨_, entry_eq_ok_iff.2 hs, hc.mem_iff i _ hs⟩

/-- What any of some states reaches is found. -/
theorem Closes.finds_ofSet (hc : Closes c t) {s : IndexSet} (hs : ∀ i ∈ s, i < t.size) :
    Finds (c.ofSet s) fun j => ∃ i ∈ s, t.Reaches i j :=
  finds_gather fun i hi => hc.finds_of (hs i hi)

end Table

end Acceptor
