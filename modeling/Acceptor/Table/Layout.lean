/-
A table as text: one line per state, one column per symbol, in columns of fixed width.
-/
import Acceptor.Table

namespace Acceptor.Table

/-- The width of the column of the states. -/
def stateWidth : Nat := 12

/-- The width of the column of a symbol. -/
def symbolWidth : Nat := 10

/-- A text filled up with spaces to a width; a wider one is left as it is. -/
def padded (width : Nat) (s : String) : String :=
  s ++ String.ofList (List.replicate (width - s.length) ' ')

/-- What stands before the name of a state: an arrow for a start state, then a star for a final
one. -/
def stateMark (t : Table) (i : Nat) : String :=
  (if t.isStart i then "->" else "") ++ if t.isFinal i then "*" else ""

/-- The states stored for a state and a column, a dash where there are none. -/
def cellText (t : Table) (state symbol : String) : String :=
  match t.targets state symbol with
  | [] => "-"
  | targets => ",".intercalate targets

/-- The line of a state. -/
def stateLine (t : Table) (state : String) (i : Nat) : String :=
  padded stateWidth (t.stateMark i ++ state)
    ++ String.join (t.alphabet.map fun symbol => padded symbolWidth (t.cellText state symbol))
    ++ "\n"

/-- The line of the columns and the rule under it. -/
def headLines (t : Table) : String :=
  padded stateWidth "state" ++ String.join (t.alphabet.map (padded symbolWidth)) ++ "\n"
    ++ String.ofList (List.replicate (stateWidth + t.alphabet.length * symbolWidth) '-') ++ "\n"

/-- The table as text. -/
def layout (t : Table) : String :=
  t.headLines ++ String.join (t.states.mapIdx fun i state => t.stateLine state i)

end Acceptor.Table
