/-
What a state reaches without reading: the closure of each state of a table under its moves in the
column of the marker, itself included.
-/
import Acceptor.Table

namespace Acceptor

/-- The closure of each state, by its position. -/
structure Closures where
  sets : List IndexSet
deriving DecidableEq

namespace Table

/-- What is seen after the moves of the states on a stack, which are seen but whose moves are not
followed yet. The last state put on the stack is followed first. It is a fault if the stack is not
empty after `fuel` steps. -/
def reach (t : Table) : Nat → IndexSet → List Nat → Except Error IndexSet
  | _, seen, [] => .ok seen
  | 0, _, _ :: _ => .error (.noSuchEntry t.size t.size)
  | fuel + 1, seen, current :: stack => do
    let next ← t.targetIndices current t.marker
    let fresh := next.toList.filter (· ∉ seen)
    t.reach fuel (seen.union next) (fresh.reverse ++ stack)

/-- What the state at a position reaches without reading. No state is put on the stack twice, so
the stack is empty after as many steps as there are states. -/
def closureAt (t : Table) (i : Nat) : Except Error IndexSet :=
  t.reach t.size (.singleton i) [i]

/-- The closures of all states. -/
def closures (t : Table) : Except Error Closures :=
  ((List.range t.size).mapM t.closureAt).map .mk

/-- The names of the states that a state reaches without reading, in increasing order. -/
def closureOf (t : Table) (state : String) : Except Error (OrderedSet String) := do
  let i ← t.index state
  let closure ← t.closureAt i
  return .ofList (← t.namesAt closure)

end Table

namespace Closures

/-- How many states there are. -/
def size (c : Closures) : Nat :=
  c.sets.length

/-- The closure of the state at a position. -/
def of (c : Closures) (i : Nat) : Except Error IndexSet :=
  entry c.sets i

/-- The union of the closures of some states. -/
def ofSet (c : Closures) (s : IndexSet) : Except Error IndexSet :=
  IndexSet.gather c.of s.toList

/-- Each state of a table with the names of its closure. -/
def named (c : Closures) (t : Table) : Except Error (List (String × List String)) :=
  (t.states.zip c.sets).mapM fun e => (t.namesAt e.2).map (e.1, ·)

end Closures

end Acceptor
