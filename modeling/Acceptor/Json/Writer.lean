/-
Writing a JSON document: every item and every member on a line of its own, indented by two spaces
for each value around it; what is empty stays on its line.
-/
import Acceptor.Json

namespace Acceptor.Json

/-- The start of a line inside `depth` values. -/
def newLine (depth : Nat) : List Char :=
  '\n' :: List.replicate (2 * depth) ' '

/-- A string in quotes. -/
def quoted (literal : List Char) : List Char :=
  '"' :: literal ++ ['"']

mutual

/-- The text of a value inside `depth` others. -/
def write (depth : Nat) : Json → List Char
  | .null => ['n', 'u', 'l', 'l']
  | .bool true => ['t', 'r', 'u', 'e']
  | .bool false => ['f', 'a', 'l', 's', 'e']
  | .number literal => literal
  | .string literal => quoted literal
  | .array [] => ['[', ']']
  | .array (item :: rest) =>
    '[' :: newLine (depth + 1) ++ write (depth + 1) item ++ writeItems (depth + 1) rest
      ++ newLine depth ++ [']']
  | .object [] => ['{', '}']
  | .object (member :: rest) =>
    '{' :: newLine (depth + 1) ++ writeMember (depth + 1) member
      ++ writeMembers (depth + 1) rest ++ newLine depth ++ ['}']

/-- The text of the items after the first. -/
def writeItems (depth : Nat) : List Json → List Char
  | [] => []
  | item :: rest => ',' :: newLine depth ++ write depth item ++ writeItems depth rest

/-- The text of a member. -/
def writeMember (depth : Nat) : List Char × Json → List Char
  | (key, value) => quoted key ++ [':', ' '] ++ write depth value

/-- The text of the members after the first. -/
def writeMembers (depth : Nat) : List (List Char × Json) → List Char
  | [] => []
  | member :: rest =>
    ',' :: newLine depth ++ writeMember depth member ++ writeMembers depth rest

end

/-- The text of a document. -/
def text (value : Json) : String :=
  String.ofList (write 0 value)

end Acceptor.Json
