/-
Automata as graphs: nodes with a name, a start and a final mark and their outgoing edges in
order, and the history of how a graph came about. A node is addressed by its position, which is
also its `id`. Main statement: a node once added keeps its position (`addNamed_nodes`), and an
edge is added to an existing node only (`addEdge_eq_ok_iff`).
-/
import Acceptor.Pattern

namespace Acceptor

/-- What is written on an edge. -/
inductive Inscription
  /-- A label. -/
  | label (l : Label)
  /-- An expression that is still to be taken apart. -/
  | pattern (p : Pattern)
deriving DecidableEq

namespace Inscription

def isPending : Inscription → Bool
  | label _ => false
  | pattern _ => true

/-- The text of an inscription. -/
def text : Inscription → String
  | label l => l.text
  | pattern p => Pattern.text p

/-- What is written for a pattern: nothing and a single atom need not be taken apart. -/
def ofPattern (p : Pattern) : Inscription :=
  if p.isEmpty then label .epsilon
  else match Pattern.atom? p with
    | some l => label l
    | none => pattern p

end Inscription

/-- An edge out of a node. -/
structure Edge where
  target : Nat
  inscription : Inscription
deriving DecidableEq

/-- A node of a graph. -/
structure Node where
  id : Nat
  name : String
  isStart : Bool
  isFinal : Bool
  edges : List Edge
deriving DecidableEq

/-- The nodes of a graph after one step of its construction. -/
structure Snapshot where
  step : Nat
  comment : String
  nodes : List Node
deriving DecidableEq

/-- An automaton as a graph. -/
structure Graph where
  nodes : List Node
  history : List Snapshot
deriving DecidableEq

/-- An edge that is still to be taken apart: its source, its position among the edges of the
source, its target and its pattern. -/
structure PendingEdge where
  source : Nat
  index : Nat
  target : Nat
  pattern : Pattern
deriving DecidableEq

/-- The first of the edges that is still to be taken apart, its source and the position of the
first of the edges given. -/
def PendingEdge.first? (source : Nat) : Nat → List Edge → Option PendingEdge
  | _, [] => none
  | index, ⟨target, .pattern p⟩ :: _ => some ⟨source, index, target, p⟩
  | index, ⟨_, .label _⟩ :: rest => first? source (index + 1) rest

namespace Graph

/-- The graph without nodes. -/
def empty : Graph := ⟨[], []⟩

/-- How many nodes there are, which is the position of the next one. -/
def size (g : Graph) : Nat :=
  g.nodes.length

/-- Adds a node with the given name. -/
def addNamed (g : Graph) (name : String) : Graph :=
  { g with nodes := g.nodes ++ [⟨g.size, name, false, false, []⟩] }

/-- Adds a node that is named after its position. -/
def addNode (g : Graph) : Graph :=
  g.addNamed s!"q{g.size}"

/-- Changes the node at a position. -/
def modifyNode (g : Graph) (id : Nat) (f : Node → Node) : Except Error Graph :=
  if id < g.size then .ok { g with nodes := g.nodes.modify id f }
  else .error (.noSuchEntry id g.size)

/-- Adds an edge after the others of its source. The target is not checked. -/
def addEdge (g : Graph) (source target : Nat) (i : Inscription) : Except Error Graph :=
  g.modifyNode source fun n => { n with edges := n.edges ++ [⟨target, i⟩] }

/-- Adds an edge with a label. -/
def addLabel (g : Graph) (source target : Nat) (l : Label) : Except Error Graph :=
  g.addEdge source target (.label l)

/-- Removes the edge at a position among those of a node. -/
def removeEdge (g : Graph) (source index : Nat) : Except Error Graph := do
  let node ← entry g.nodes source
  let _ ← entry node.edges index
  g.modifyNode source fun n => { n with edges := n.edges.eraseIdx index }

/-- Marks a node as a start node. -/
def markStart (g : Graph) (id : Nat) : Except Error Graph :=
  g.modifyNode id fun n => { n with isStart := true }

/-- Marks a node as a final node. -/
def markFinal (g : Graph) (id : Nat) : Except Error Graph :=
  g.modifyNode id fun n => { n with isFinal := true }

/-- Records the nodes as they are. -/
def snapshot (g : Graph) (comment : String) : Graph :=
  { g with history := g.history ++ [⟨g.history.length, comment, g.nodes⟩] }

/-- The node at a position. -/
def node? (g : Graph) (id : Nat) : Option Node :=
  g.nodes[id]?

/-- The name of the node at a position, `?` where there is none. -/
def nameOf (g : Graph) (id : Nat) : String :=
  match g.node? id with
  | some n => n.name
  | none => "?"

def startNodes (g : Graph) : List Node :=
  g.nodes.filter (·.isStart)

def finalNodes (g : Graph) : List Node :=
  g.nodes.filter (·.isFinal)

/-- All edges, each with its source. -/
def edges (g : Graph) : List (Nat × Edge) :=
  g.nodes.flatMap fun n => n.edges.map (n.id, ·)

def edgeCount (g : Graph) : Nat :=
  g.edges.length

/-- The first edge that is still to be taken apart: nodes by position, edges in order. -/
def firstPending? (g : Graph) : Option PendingEdge :=
  g.nodes.findSome? fun n => PendingEdge.first? n.id 0 n.edges

/-- Whether every edge carries a label. -/
def isAtomic (g : Graph) : Bool :=
  g.firstPending?.isNone

@[simp] theorem addNamed_nodes (g : Graph) (name : String) :
    (g.addNamed name).nodes = g.nodes ++ [⟨g.size, name, false, false, []⟩] := rfl

@[simp] theorem size_addNamed (g : Graph) (name : String) :
    (g.addNamed name).size = g.size + 1 := by
  simp [size]

@[simp] theorem size_addNode (g : Graph) : g.addNode.size = g.size + 1 :=
  size_addNamed g _

theorem modifyNode_eq_ok_iff {g g' : Graph} {id : Nat} {f : Node → Node} :
    g.modifyNode id f = .ok g' ↔ id < g.size ∧ g' = { g with nodes := g.nodes.modify id f } := by
  unfold modifyNode
  split
  · rename_i h
    simp [h, eq_comm]
  · rename_i h
    simp [h]

/-- An edge is added exactly where its source exists. -/
theorem addEdge_eq_ok_iff {g g' : Graph} {source target : Nat} {i : Inscription} :
    g.addEdge source target i = .ok g' ↔ source < g.size ∧
      g' = { g with nodes := g.nodes.modify source fun n =>
        { n with edges := n.edges ++ [⟨target, i⟩] } } :=
  modifyNode_eq_ok_iff

end Graph

end Acceptor
