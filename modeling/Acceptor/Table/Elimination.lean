/-
Removing the moves without reading from a table: a move under a symbol takes in what is reached
without reading before and after it, and a state is final where its closure holds a final state.
States keep their positions and are named anew.
-/
import Acceptor.Table.Cells
import Acceptor.Table.Closure
import Acceptor.Table.Validity

namespace Acceptor.Table

/-- The new name of the state at a position. -/
def stateName (i : Nat) : String :=
  s!"S{i}"

/-- The states reached from the members of a closure by a symbol and then without reading. -/
def reachedBy (t : Table) (c : Closures) (closure : IndexSet) (symbol : String) :
    Except Error IndexSet :=
  let follow (q : Nat) : Except Error IndexSet := do
    let direct ← t.targetIndices q symbol
    c.ofSet direct
  IndexSet.gather follow closure.toList

/-- The entries of a state, given by its closure and its position: one for each symbol. -/
def reachedCells (t : Table) (c : Closures) (names : List String) (state : IndexSet × Nat) :
    Except Error (List Cell) :=
  t.symbols.mapM fun symbol => do
    let reached ← t.reachedBy c state.1 symbol
    return ⟨stateName state.2, symbol, ← reached.toList.mapM (entry names)⟩

/-- The table without moves without reading, given its closures. Closures of another number of
states are refused. -/
def removeEpsilonWith (t : Table) (c : Closures) : Except Error Table := do
  if c.size ≠ t.size then throw (.indexOutOfRange c.size t.size)
  let names := (List.range t.size).map stateName
  let cells ← c.sets.zipIdx.mapM (t.reachedCells c names)
  let r := ofStates names t.symbols t.marker
  let finals := IndexSet.positions (·.any t.isFinal) c.sets
  return { r with starts := t.starts, finals := finals }.store cells.flatten

/-- The table without moves without reading. -/
def removeEpsilon (t : Table) : Except Error Table := do
  t.validate
  let c ← t.closures
  t.removeEpsilonWith c

end Acceptor.Table
