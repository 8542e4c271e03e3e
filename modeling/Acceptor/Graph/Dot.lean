/-
Graphs in the DOT language. Start nodes are blue, final nodes are double circles, red unless they
are also start nodes. Main statement: a quoted text reads back (`unescape_escape`).
-/
import Acceptor.Graph

namespace Acceptor.Dot

/-- The characters between the quotes of a quoted text. -/
def escape : List Char → List Char
  | [] => []
  | c :: rest =>
    if c = '\\' then '\\' :: '\\' :: escape rest
    else if c = '"' then '\\' :: '"' :: escape rest
    else c :: escape rest

/-- The text whose characters between quotes are the given ones. -/
def unescape : List Char → List Char
  | [] => []
  | '\\' :: c :: rest => c :: unescape rest
  | c :: rest => c :: unescape rest

theorem unescape_escape (s : List Char) : unescape (escape s) = s := by
  induction s with
  | nil => rfl
  | cons c rest ih =>
    by_cases h₁ : c = '\\'
    · simp [escape, unescape, h₁, ih]
    · by_cases h₂ : c = '"'
      · simp [escape, unescape, h₂, ih]
      · simp [escape, unescape, h₁, h₂, ih]

/-- A text in quotes. -/
def quote (text : String) : String :=
  "\"" ++ String.ofList (escape text.toList) ++ "\""

/-- The line of a node. -/
def nodeLine (n : Node) : String :=
  let shape := if n.isFinal then "doublecircle" else "circle"
  let color := if n.isStart then "blue" else if n.isFinal then "red" else "black"
  s!"    n{n.id} [label={quote n.name}, shape={shape}, color={color}];\n"

/-- The line of an edge. -/
def edgeLine (source : Nat) (e : Edge) : String :=
  s!"    n{source} -> n{e.target} [label={quote e.inscription.text}];\n"

/-- The lines of a title; none for the empty one. -/
def titleLines (title : String) : String :=
  if title.isEmpty then "" else s!"    label={quote title};\n    labelloc=t;\n"

/-- The nodes, and after all of them their edges, as a directed graph. -/
def render (nodes : List Node) (title : String) : String :=
  "digraph automaton \x7b\n    rankdir=LR;\n" ++ titleLines title
    ++ String.join (nodes.map nodeLine)
    ++ String.join (nodes.flatMap fun n => n.edges.map (edgeLine n.id)) ++ "\x7d\n"

end Dot

/-- The graph in the DOT language. -/
def Graph.toDot (g : Graph) (title : String) : String :=
  Dot.render g.nodes title

/-- The nodes at a step in the DOT language, under the step and its comment. -/
def Snapshot.toDot (s : Snapshot) : String :=
  Dot.render s.nodes s!"{s.step}: {s.comment}"

end Acceptor
