/-
From an expression to a graph that decides its language, with every form on the way.
-/
import Acceptor.Graph.Construction
import Acceptor.Graph.Walk
import Acceptor.Table.Subsets
import Acceptor.Tabulation

namespace Acceptor

/-- A compiled expression: the forms that it went through and the deterministic graph. -/
structure Recognizer where
  expression : String
  /-- The graph that the expression was taken apart into, with its history. -/
  nfa : Graph
  /-- That graph as a table. -/
  nfaTable : Table
  /-- The table with disjoint columns and without moves without reading. -/
  epsilonFree : Table
  /-- The deterministic table. -/
  dfa : Dfa
  /-- The deterministic graph. -/
  graph : Graph
  options : WalkOptions

namespace Recognizer

/-- Compiles an expression. -/
def ofExpression (expression : String) (options : WalkOptions) : Except Error Recognizer := do
  let nfa ← Graph.ofExpression expression
  let nfaTable ← Table.ofGraph nfa
  let refined ← nfaTable.refine
  let epsilonFree ← refined.removeEpsilon
  let dfa ← epsilonFree.determinize
  let graph ← Graph.ofTable dfa.table
  return ⟨expression, nfa, nfaTable, epsilonFree, dfa, graph, options⟩

/-- The compiled expression with other options. -/
def withOptions (r : Recognizer) (options : WalkOptions) : Recognizer :=
  { r with options := options }

/-- Walks along an input. -/
def run (r : Recognizer) (input : String) : Except Error Run :=
  r.graph.walk input r.options

/-- Whether an input is accepted. -/
def isMatch (r : Recognizer) (input : String) : Bool :=
  match r.run input with
  | .ok run => run.accepted
  | .error _ => false

/-- The answers to many inputs. -/
def testAll (r : Recognizer) (inputs : List String) : List Verdict :=
  r.graph.acceptsAll inputs r.options

end Recognizer

end Acceptor
