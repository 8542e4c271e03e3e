/-
Graphs as tables and tables as graphs. A table names its columns after the texts of the labels,
so edges whose labels share a text share a column; a graph takes the columns back as labels.
-/
import Acceptor.Graph
import Acceptor.Table.Validity

namespace Acceptor

namespace Table

/-- The columns seen so far and the one of a further edge, unless it reads nothing or is among
them. -/
def addColumn (g : Graph) (columns : List String) (e : Nat × Edge) : Except Error (List String) :=
  match e.2.inscription with
  | .pattern p =>
    .error (.pendingExpression (g.nameOf e.1) (g.nameOf e.2.target) (Pattern.text p))
  | .label l => .ok (if l.isEpsilon || l.text ∈ columns then columns else columns ++ [l.text])

/-- Stores the move of an edge. -/
def addEdge (g : Graph) (t : Table) (e : Nat × Edge) : Table :=
  t.addTarget (g.nameOf e.1) e.2.inscription.text (g.nameOf e.2.target)

/-- The table of a graph in which every edge carries a label: its columns in the order in which
edges first show them, and the marker last. -/
def ofGraph (g : Graph) : Except Error Table := do
  let names := g.nodes.map (·.name)
  if let some name := firstRepeat? [] names then throw (.duplicateState name)
  let columns ← g.edges.foldlM (addColumn g) []
  let t := g.edges.foldl (addEdge g) (ofStates names (columns ++ [usualMarker]) usualMarker)
  return { t with
    starts := .ofList (g.startNodes.map (·.id))
    finals := .ofList (g.finalNodes.map (·.id)) }

/-- Each column with its label; the marker reads nothing. -/
def columns (t : Table) : Except Error (List (String × Label)) :=
  t.alphabet.mapM fun symbol =>
    if t.isMarker symbol then .ok (symbol, .epsilon)
    else (Label.ofText symbol).map (symbol, ·)

/-- The edges out of a state: column by column, each with its targets by position. -/
def edgesAt (t : Table) (columns : List (String × Label)) (i : Nat) : Except Error (List Edge) := do
  let parts ← columns.mapM fun column => do
    let targets ← t.targetIndices i column.1
    return targets.toList.map fun target => ⟨target, .label column.2⟩
  return parts.flatten

/-- The node of a state. -/
def nodeAt (t : Table) (columns : List (String × Label)) (state : String × Nat) :
    Except Error Node := do
  let edges ← t.edgesAt columns state.2
  return ⟨state.2, state.1, t.isStart state.2, t.isFinal state.2, edges⟩

end Table

/-- The graph of a table: one node for each state. -/
def Graph.ofTable (t : Table) : Except Error Graph := do
  t.validate
  let columns ← t.columns
  let nodes ← t.states.zipIdx.mapM (t.nodeAt columns)
  return (Graph.mk nodes []).snapshot
    s!"built from table: {t.size} states, {t.alphabet.length} symbols"

end Acceptor
