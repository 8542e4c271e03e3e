/-
Storing many entries of a table at once. Main statement: what is found after it is the last of
the entries stored, or what was there before (`targets_store`).
-/
import Acceptor.Table

namespace Acceptor

/-- An entry of a table: the states that follow a state in a column. -/
structure Cell where
  state : String
  symbol : String
  targets : List String
deriving DecidableEq

namespace Table

/-- Stores entries one after the other. -/
def store (t : Table) (cells : List Cell) : Table :=
  cells.foldl (fun t c => t.setTargets c.state c.symbol c.targets) t

/-- The last of the entries of a state in a column decides what is found. -/
theorem targets_store (t : Table) (cells : List Cell) (state symbol : String) :
    (t.store cells).targets state symbol =
      match cells.reverse.find? fun c => state = c.state ∧ symbol = c.symbol with
      | some c => c.targets
      | none => t.targets state symbol := by
  induction cells generalizing t with
  | nil => rfl
  | cons c rest ih =>
    rw [store, List.foldl_cons, ← store, ih, List.reverse_cons, List.find?_append,
      targets_setTargets]
    cases rest.reverse.find? fun c => decide (state = c.state ∧ symbol = c.symbol) with
    | some d => rfl
    | none =>
      by_cases h : state = c.state ∧ symbol = c.symbol
      · simp [h]
      · simp [h]

end Table

end Acceptor
