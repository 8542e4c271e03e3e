/-
Tables without dead ends: from each state some word leads to a final one. Main statements: each
stage from a table to a deterministic one keeps a table live. The subset construction does, as it
makes no state that stands for nothing (`Determinized.live`).
-/
import Acceptor.Proofs.Table.Elimination
import Acceptor.Proofs.Table.Refinement
import Acceptor.Proofs.Table.Trails

namespace Acceptor.Table

variable {t r : Table} {found : List IndexSet}

/-- From each state a word leads to a final one. -/
def Live (t : Table) : Prop := ∀ i < t.size, ∃ w, ∃ k ∈ t.finals, t.arrows.Path i w k

theorem Refined.live (h : Refined t r) (hl : t.Live) : r.Live := by
  intro i hi
  rw [size, h.states_eq] at hi
  rw [h.arrows_eq, h.finals_eq]
  exact hl i hi

theorem Eliminated.live (h : Eliminated t r) (hl : t.Live) : r.Live := by
  intro i hi
  rw [h.size_eq] at hi
  obtain ⟨w, hw⟩ := hl i hi
  exact ⟨w, (h.leads_iff hi).2 hw⟩

theorem Determinized.live (h : Determinized t r found)
    (hmarker : ∀ state, t.targets state t.marker = []) (hreach : ∀ s ∈ found, t.Reachable s)
    (hl : t.Live) : r.Live := by
  intro x hx
  have hstate : r.states[x]? = some r.states[x] := List.getElem?_eq_getElem hx
  obtain ⟨k, hk, hname⟩ := (h.mem_states_iff _).1 (List.mem_of_getElem? hstate)
  have hset : found[k]? = some found[k] := List.getElem?_eq_getElem hk
  -- any member of the set that the state stands for will do
  obtain ⟨i, hi⟩ := OrderedSet.isEmpty_eq_false_iff.1
    (hreach _ (List.mem_of_getElem? hset)).nonempty
  obtain ⟨w, j, hj, hp⟩ := hl i (h.sets.lt _ (List.mem_of_getElem? hset) i hi)
  exact ⟨w, (h.leads_iff hmarker ⟨k, hname ▸ hstate, hset⟩).2 ⟨i, hi, j, hj, hp⟩⟩

/-- A live table with states has a final state. -/
theorem Live.finals_isEmpty (hl : t.Live) (hne : t.states ≠ []) : t.finals.isEmpty = false := by
  obtain ⟨w, k, hk, -⟩ := hl 0 (List.length_pos_iff.2 hne)
  exact Bool.eq_false_iff.2 fun he => OrderedSet.isEmpty_eq_true_iff.1 he k hk

end Acceptor.Table
