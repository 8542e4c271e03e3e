/-
Running a table: all states that an input can lead to are tracked at once, so moves without
reading and overlapping columns are taken into account.
-/
import Acceptor.Table.Closure
import Acceptor.Table.Validity

namespace Acceptor.Table

/-- Each symbol with its label. -/
def symbolLabels (t : Table) : Except Error (List (String × Label)) :=
  t.symbols.mapM fun symbol => (Label.ofText symbol).map (symbol, ·)

/-- The states that follow a state under the columns that read a character. -/
def stepFrom (t : Table) (labels : List (String × Label)) (c : Char) (i : Nat) :
    Except Error IndexSet :=
  IndexSet.gather (fun label => t.targetIndices i label.1) (labels.filter (·.2.reads c))

/-- The states that follow any of some states under the columns that read a character. -/
def step (t : Table) (labels : List (String × Label)) (c : Char) (s : IndexSet) :
    Except Error IndexSet :=
  IndexSet.gather (t.stepFrom labels c) s.toList

/-- Whether an input leads from some states to a final one. -/
def acceptsFrom (t : Table) (closures : Closures) (labels : List (String × Label)) :
    IndexSet → List Char → Except Error Bool
  | current, [] => .ok (current.any t.isFinal)
  | current, c :: rest => do
    let next ← t.step labels c current
    let next ← closures.ofSet next
    if next.isEmpty then return false
    t.acceptsFrom closures labels next rest

/-- Whether an input leads from the initial states to a final one. -/
def accepts (t : Table) (input : String) : Except Error Bool := do
  t.validate
  if t.states.isEmpty then throw .noStates
  let closures ← t.closures
  let labels ← t.symbolLabels
  let first ← closures.ofSet t.initial
  t.acceptsFrom closures labels first input.toList

end Acceptor.Table
