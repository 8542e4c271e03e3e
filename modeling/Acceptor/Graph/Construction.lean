/-
The graph of an expression. It starts as one edge from a start node to a final node that carries
the whole expression; the first edge that still carries an expression is taken apart again and
again, and each step is recorded, until every edge carries a label.
-/
import Acceptor.Graph
import Acceptor.Pattern.Decomposition
import Acceptor.Token.Lexer

namespace Acceptor

/-- How much of an inscription is still to be taken apart: a pattern of `n` tokens counts `3 ^ n`,
more than all the patterns that replace it together. -/
def Inscription.weight : Inscription → Nat
  | label _ => 0
  | pattern p => Nat.pow 3 p.length

namespace Graph

/-- Adds an edge that carries a pattern, or a label where that is all the pattern is. -/
def addPattern (g : Graph) (source target : Nat) (p : Pattern) : Except Error Graph :=
  g.addEdge source target (.ofPattern p)

/-- Adds a chain of edges, one for each pattern, through new nodes. -/
def addChain (g : Graph) (source target : Nat) : List Pattern → Except Error Graph
  | [] => .ok g
  | [last] => g.addPattern source target last
  | p :: rest => do
    let next := g.size
    let g ← g.addNode.addPattern source next p
    g.addChain next target rest

/-- Adds what replaces an edge. Repetition goes through a new node with a loop, which is entered
by reading the operand once (`^`) or without reading (`*`). -/
def addDecomposition (g : Graph) (source target : Nat) : Decomposition → Except Error Graph
  | .group inner => g.addPattern source target inner
  | .union parts => parts.foldlM (fun g part => g.addPattern source target part) g
  | .repetition .plus operand => do
    let middle := g.size
    let g ← g.addNode.addPattern source middle operand
    let g ← g.addLabel middle target .epsilon
    g.addPattern middle middle operand
  | .repetition .star operand => do
    let middle := g.size
    let g ← g.addNode.addLabel source middle .epsilon
    let g ← g.addLabel middle target .epsilon
    g.addPattern middle middle operand
  | .chain pieces => g.addChain source target pieces
  | .atom label => g.addLabel source target label

/-- Replaces an edge that is still to be taken apart, and records the step. -/
def decompose (g : Graph) (e : PendingEdge) : Except Error Graph := do
  let r ← (Decomposition.ofPattern e.pattern).mapError .expression
  let comment :=
    s!"{r.name} on {g.nameOf e.source} -> {g.nameOf e.target} '{Pattern.text e.pattern}'"
  let g ← g.removeEdge e.source e.index
  let g ← g.addDecomposition e.source e.target r
  return g.snapshot comment

/-- Takes edges apart until each carries a label. It is a fault if one does not after `fuel`
steps. -/
def decomposeAll : Nat → Graph → Except Error Graph
  | 0, g =>
    match g.firstPending? with
    | none => .ok g
    | some e =>
      .error (.pendingExpression (g.nameOf e.source) (g.nameOf e.target) (Pattern.text e.pattern))
  | fuel + 1, g =>
    match g.firstPending? with
    | none => .ok g
    | some e => do
      let g ← g.decompose e
      decomposeAll fuel g

/-- How much is still to be taken apart. -/
def weight (g : Graph) : Nat :=
  g.edges.foldr (fun e rest => e.2.inscription.weight + rest) 0

/-- One edge with the whole pattern, from the start node to the final node. -/
def ofPattern (p : Pattern) : Except Error Graph := do
  let g ← empty.addNode.addNode.markStart 0
  let g ← g.markFinal 1
  let comment := s!"initial expression '{Pattern.text p}': {g.nameOf 0} -> {g.nameOf 1}"
  let g ← g.addPattern 0 1 p
  return g.snapshot comment

/-- The graph of an expression. -/
def ofExpression (text : String) : Except Error Graph := do
  let p ← (Token.ofText text).mapError .expression
  let g ← ofPattern p
  decomposeAll g.weight g

end Graph

end Acceptor
