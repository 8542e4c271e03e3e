/-
What the program prints: how an expression is taken apart, the tables on the way to a
deterministic one, closures, and answers to inputs.
-/
import Acceptor.CommandLine.Arguments
import Acceptor.CommandLine.ReadError
import Acceptor.Graph.Dot
import Acceptor.Recognizer
import Acceptor.Table.Document
import Acceptor.Table.Layout

namespace Acceptor.CommandLine

/-- What a run of the program leaves: its exit code and its output. -/
structure Outcome where
  exitCode : Nat
  stdout : String
  stderr : String
deriving DecidableEq

/-- A text as a line. -/
def line (text : String) : String :=
  text ++ "\n"

/-- Output of a run that ends well. -/
def success (stdout : String) : Outcome :=
  ⟨0, stdout, ""⟩

/-- A run that ends with a message about what went wrong. -/
def failure (message : String) : Outcome :=
  ⟨1, "", line ("Error: " ++ message)⟩

/-- Members in braces. -/
def braced (members : List String) : String :=
  "\x7b" ++ ", ".intercalate members ++ "\x7d"

/-- The line of a name and its members. -/
def memberLine (entry : String × List String) : String :=
  line s!"  {entry.1} = {braced entry.2}"

def memberLines (entries : List (String × List String)) : String :=
  String.join (entries.map memberLine)

/-- A table under its heading. -/
def tableSection (heading : String) (t : Table) : String :=
  line heading ++ line t.layout

/-! ## Expressions -/

/-- The line of an edge. -/
def edgeLine (g : Graph) (e : Nat × Edge) : String :=
  line s!"    {g.nameOf e.1} -> {g.nameOf e.2.target}  {e.2.inscription.text}"

/-- The steps of the construction of a graph, and its edges. -/
def buildReport (expression : String) (g : Graph) : String :=
  line "Building automaton..." ++ line ("  Expression: " ++ expression) ++ line ""
    ++ String.join (g.history.map fun s => line s!"[{s.step}] {s.comment}") ++ line ""
    ++ line s!"Result: {g.size} nodes, {g.edgeCount} edges"
    ++ String.join (g.edges.map (edgeLine g))

/-- The steps of the construction of a graph in the DOT language. -/
def dotReport (g : Graph) : String :=
  String.join (g.history.map fun s => line s.toDot)

/-- The tables of an expression. -/
def tableReport (r : Recognizer) : String :=
  tableSection "NFA:" r.nfaTable
    ++ tableSection "Without epsilon transitions:" r.epsilonFree
    ++ tableSection "Deterministic:" r.dfa.table
    ++ line "Subsets:" ++ memberLines r.dfa.subsets.entries

/-- The line of an answer. The empty input is shown as the text of the empty word. -/
def verdictLine (v : Verdict) : String :=
  let shown := if v.input.isEmpty then Label.epsilon.text else v.input
  let mark := if v.accepted then "✓" else "✗"
  let fault := match v.fault with
    | some e => s!" ({e.message})"
    | none => ""
  line ("  " ++ mark ++ " " ++ shown ++ fault)

/-- The answers to several inputs. -/
def testReport (expression : String) (verdicts : List Verdict) : String :=
  let accepted := (verdicts.filter (·.accepted)).length
  line "Testing expression..." ++ line ("  Expression: " ++ expression) ++ line ""
    ++ String.join (verdicts.map verdictLine) ++ line ""
    ++ line s!"Accepted {accepted} of {verdicts.length}"

/-- Why a walk does not accept, with the names of the nodes. -/
def rejectionText (g : Graph) : Rejection → String
  | .noTransition node char position =>
    s!"no transition from {g.nameOf node} on '{char}' at position {position}"
  | .notFinal node => s!"{g.nameOf node} is not final"

/-- The answer to one input. -/
def matchOutcome (r : Recognizer) (run : Run) : Outcome :=
  if run.accepted then success (line "✓ Match")
  else
    let reason := (run.rejection.map (rejectionText r.graph)).getD ""
    ⟨1, line ("✗ No match: " ++ reason), ""⟩

/-! ## Files -/

/-- The closures of a table. -/
def closureReport (t : Table) : Except Error String := do
  let c ← t.closures
  let named ← c.named t
  return line "Epsilon closures:" ++ memberLines named

/-- A table, and the tables on the way to a deterministic one. -/
def determinizeReport (t : Table) : Except Error String := do
  let refined ← t.refine
  let c ← refined.closures
  let epsilonFree ← refined.removeEpsilonWith c
  let dfa ← epsilonFree.determinize
  return tableSection "Input:" t ++ tableSection "Without epsilon transitions:" epsilonFree
    ++ tableSection "Deterministic:" dfa.table ++ memberLines dfa.subsets.entries

/-- The outcome of a report that may fail. -/
def ofReport (report : Except Error String) : Outcome :=
  match report with
  | .ok text => success text
  | .error e => failure e.message

/-- The outcome of a report on the table in a file, given what reading the file yields: its text,
or the reason why there is none. -/
def ofFile (file : String) (contents : Except ReadError String)
    (report : Table → Except Error String) : Outcome :=
  match contents with
  | .error reason => failure s!"cannot read {file}: {reason.message}"
  | .ok text => ofReport (Table.ofDocument text >>= report)

/-! ## The program -/

/-- The outcome of an invocation, given how files are read. -/
def Invocation.outcome (i : Invocation) (read : String → Except ReadError String) : Outcome :=
  let compile (expression : String) : Except Error Recognizer :=
    Recognizer.ofExpression expression ⟨i.legacyEpsilon⟩
  match i.command with
  | .build expression dot =>
    ofReport ((Graph.ofExpression expression).map fun g =>
      if dot then dotReport g else buildReport expression g)
  | .table expression => ofReport ((compile expression).map tableReport)
  | .closure file => ofFile file (read file) closureReport
  | .determinize file => ofFile file (read file) determinizeReport
  | .test expression inputs =>
    ofReport ((compile expression).map fun r => testReport expression (r.testAll inputs))
  | .check expression input =>
    match compile expression with
    | .error e => failure e.message
    | .ok r =>
      match r.run input with
      | .error e => failure e.message
      | .ok run => matchOutcome r run

/-- The name and the version of the program. -/
def versionText : String :=
  "automat 0.1.0"

/-- How the program is used. -/
def usage : String :=
  "Compile regular expressions into finite automata, step by step\n\n"
    ++ "Usage: automat [OPTIONS] <COMMAND>\n\n"
    ++ "Commands:\n"
    ++ "  build [--dot] <EXPRESSION>\n"
    ++ "  table <EXPRESSION>\n"
    ++ "  closure <FILE>\n"
    ++ "  determinize <FILE>\n"
    ++ "  test <EXPRESSION> <INPUTS>...\n"
    ++ "  match <EXPRESSION> <INPUT>\n\n"
    ++ "Options:\n"
    ++ "      --legacy-epsilon\n"
    ++ "  -v, --verbose\n"
    ++ "  -h, --help\n"
    ++ "  -V, --version\n"

/-- The outcome where nothing is done. -/
def Stop.outcome : Stop → Outcome
  | help => success usage
  | version => success (line versionText)
  | misuse reason => ⟨2, "", line ("error: " ++ reason) ++ "\n" ++ usage⟩

/-- The outcome of a run of the program. -/
def outcome (arguments : List String) (environment : Option String)
    (read : String → Except ReadError String) : Outcome :=
  match parse arguments environment with
  | .ok invocation => invocation.outcome read
  | .error stop => stop.outcome

end Acceptor.CommandLine
