/-
Walking through a graph along an input. The walk stands on one node at a time and follows the
first of its edges that reads the next character, so it finds every accepted input only in a
deterministic graph.
-/
import Acceptor.Graph

namespace Acceptor

/-- A switch of the walk. -/
structure WalkOptions where
  /-- Whether an edge without a label to read takes any character, as older graphs expect. -/
  legacyEpsilon : Bool := false
deriving DecidableEq

/-- One character read. -/
structure Step where
  source : Nat
  char : Char
  target : Nat
deriving DecidableEq

/-- Why a walk does not accept. -/
inductive Rejection
  /-- No edge of the node reads the character at the position. -/
  | noTransition (node : Nat) (char : Char) (position : Nat)
  /-- The input ends on a node that is not final. -/
  | notFinal (node : Nat)
deriving DecidableEq

/-- The wording of a rejection. -/
def Rejection.message : Rejection → String
  | noTransition node char position =>
    s!"no transition from node {node} on '{char}' at position {position}"
  | notFinal node => s!"stopped in non-final node {node}"

/-- The node where the walk was rejected. -/
def Rejection.node : Rejection → Nat
  | noTransition node _ _ => node
  | notFinal node => node

/-- A finished walk. -/
structure Run where
  /-- Whether the walk read the whole input and ended on a final node. -/
  accepted : Bool
  steps : List Step
  rejection : Option Rejection
deriving DecidableEq

/-- The node where the walk ended, as far as the run shows it: an accepted run without steps does
not. -/
def Run.lastNode? (r : Run) : Option Nat :=
  match r.rejection with
  | some rejection => some rejection.node
  | none => r.steps.getLast?.map (·.target)

/-- Whether an edge reads a character. An edge that is still to be taken apart reads the one
character that is its whole text. -/
def Edge.reads (options : WalkOptions) (e : Edge) (c : Char) : Bool :=
  match e.inscription with
  | .label .epsilon => options.legacyEpsilon
  | .label l => l.reads c
  | .pattern p => Pattern.chars p = [c]

namespace Graph

/-- Walks on from a node, where `position` characters are read already. -/
def walkFrom (g : Graph) (options : WalkOptions) : Node → Nat → List Char → Except Error Run
  | node, _, [] =>
    let accepted := node.isFinal
    .ok ⟨accepted, [], if accepted then none else some (.notFinal node.id)⟩
  | node, position, c :: rest =>
    match node.edges.find? (·.reads options c) with
    | none => .ok ⟨false, [], some (.noTransition node.id c position)⟩
    | some e =>
      match g.node? e.target with
      | none => .error (.unknownState s!"q{e.target}")
      | some next =>
        (g.walkFrom options next (position + 1) rest).map fun run =>
          { run with steps := ⟨node.id, c, next.id⟩ :: run.steps }

/-- Walks along an input from the first start node. A graph without a start node or without a
final node is a fault; an input that is not accepted is a run. -/
def walk (g : Graph) (input : String) (options : WalkOptions) : Except Error Run :=
  match g.startNodes with
  | [] => .error .missingStart
  | start :: _ =>
    if g.finalNodes.isEmpty then .error .missingFinal
    else g.walkFrom options start 0 input.toList

/-- Whether an input is accepted. -/
def accepts (g : Graph) (input : String) : Except Error Bool :=
  (g.walk input {}).map (·.accepted)

end Graph

/-- The answer to one input of a batch: a fault counts as not accepted. -/
structure Verdict where
  input : String
  accepted : Bool
  fault : Option Error
deriving DecidableEq

/-- The answer that a walk gives. -/
def Verdict.ofWalk (input : String) : Except Error Run → Verdict
  | .ok run => ⟨input, run.accepted, none⟩
  | .error e => ⟨input, false, some e⟩

/-- The answers to many inputs. -/
def Graph.acceptsAll (g : Graph) (inputs : List String) (options : WalkOptions) : List Verdict :=
  inputs.map fun input => .ofWalk input (g.walk input options)

end Acceptor
