/-
Making the columns of a table disjoint: labels that overlap are split into classes of characters,
and each class gets a column of its own.
-/
import Acceptor.CharClass
import Acceptor.Table.Acceptance
import Acceptor.Table.Cells

namespace Acceptor.Table

/-- The column of a class. A literal that is written like the marker is written as a range. -/
def className (t : Table) : Label → String
  | .literal c =>
    if t.isMarker (Label.literal c).text then (Label.range c c).text else (Label.literal c).text
  | label => label.text

/-- The states that follow the one at a position in any of some columns, given by position. -/
def targetsIn (t : Table) (symbols : List String) (i : Nat) (members : IndexSet) :
    Except Error IndexSet :=
  let follow (m : Nat) : Except Error IndexSet := do
    let symbol ← entry symbols m
    t.targetIndices i symbol
  IndexSet.gather follow members.toList

/-- The entry of a state in the column of a class. -/
def classCell (t : Table) (symbols : List String) (state : String × Nat) (c : CharClass) :
    Except Error Cell := do
  let targets ← t.targetsIn symbols state.2 c.members
  return ⟨state.1, t.className c.label, ← t.namesAt targets⟩

/-- The entries of a state: one for each class, and the moves without reading as they are. Entries
that hold no state are left out. -/
def classCells (t : Table) (symbols : List String) (classes : List CharClass)
    (state : String × Nat) : Except Error (List Cell) := do
  let cells ← classes.mapM (t.classCell symbols state)
  let epsilonCell : Cell := ⟨state.1, t.marker, t.targets state.1 t.marker⟩
  return (cells ++ [epsilonCell]).filter fun c => !c.targets.isEmpty

/-- The table over disjoint columns. A table whose columns do not overlap, or are not all labels,
is left as it is. -/
def refine (t : Table) : Except Error Table := do
  t.validate
  match t.symbolLabels with
  | .error _ => return t
  | .ok labels =>
    let classes := CharClass.partition (labels.map Prod.snd)
    if classes.all (·.members.size = 1) then return t
    let alphabet := classes.map (t.className ·.label)
      ++ if t.alphabet.any t.isMarker then [t.marker] else []
    let cells ← t.states.zipIdx.mapM (t.classCells t.symbols classes)
    let r := ofStates t.states alphabet t.marker
    return { r with starts := t.starts, finals := t.finals }.store cells.flatten

end Acceptor.Table
