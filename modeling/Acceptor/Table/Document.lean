/-
Tables as JSON documents: an object with a member for each part of the table. When a table is
read, its parts may also stand in an array in their order, unknown members are passed over, and
all parts but the states and the alphabet may be missing.
-/
import Acceptor.Json.Reader
import Acceptor.Json.Writer
import Acceptor.Table.Validity

namespace Acceptor

namespace Json

/-! ## Writing parts -/

def ofText (s : String) : Json :=
  .string (encode s.toList)

def ofTexts (ss : List String) : Json :=
  .array (ss.map ofText)

def ofIndices (s : IndexSet) : Json :=
  .array (s.toList.map fun i => .number (digits i))

/-- The members are in the order of the keys. -/
def ofDict {α : Type} (ofValue : α → Json) (d : Dict α) : Json :=
  .object (d.entries.map fun e => (encode e.1.toList, ofValue e.2))

/-! ## Reading parts -/

variable {α : Type}

def text? : Json → Option String
  | string literal => (decode? literal).map String.ofList
  | _ => none

def nat? : Json → Option Nat
  | number literal => natural? literal
  | _ => none

def list? (item? : Json → Option α) : Json → Option (List α)
  | array items => items.mapM item?
  | _ => none

/-- Members with their keys as texts. -/
def named? (members : List (List Char × Json)) : Option (List (String × Json)) :=
  members.mapM fun m => (decode? m.1).map (String.ofList ·, m.2)

/-- Of two members with one key the later counts. -/
def dict? (value? : Json → Option α) : Json → Option (Dict α)
  | object members => do
    let named ← named? members
    let entries ← named.mapM fun m => (value? m.2).map (m.1, ·)
    return .ofList entries
  | _ => none

/-- The one member with a key: none if there is no such member, and no answer if there are
more. -/
def member? (named : List (String × Json)) (key : String) : Option (Option Json) :=
  match named.filter (·.1 = key) with
  | [] => some none
  | [m] => some (some m.2)
  | _ => none

/-- A part that may be missing. -/
def orElse? (read? : Json → Option α) (default : α) : Option Json → Option α
  | none => some default
  | some value => read? value

end Json

namespace Table

open Json

/-- The names of the parts of a table. -/
def partNames : List String :=
  ["states", "alphabet", "epsilon", "transitions", "starts", "finals"]

/-- The parts of a table. -/
def parts (t : Table) : List Json :=
  [ofTexts t.states, ofTexts t.alphabet, ofText t.marker, ofDict (ofDict ofTexts) t.moves,
    ofIndices t.starts, ofIndices t.finals]

/-- The table as a document. -/
def document (t : Table) : String :=
  Json.text (.object ((partNames.map String.toList).zip t.parts))

/-- The parts in a document, in the order of their names. -/
def parts? : Json → Option (List (Option Json))
  | .array items =>
    if items.length ≤ partNames.length then
      some (items.map some ++ List.replicate (partNames.length - items.length) none)
    else none
  | .object members => do
    let named ← named? members
    partNames.mapM (member? named)
  | _ => none

/-- The table that a document holds. -/
def ofJson? (value : Json) : Option Table := do
  match ← parts? value with
  | [some states, some alphabet, marker, moves, starts, finals] =>
    let states ← list? text? states
    let alphabet ← list? text? alphabet
    let marker ← orElse? text? usualMarker marker
    let moves ← orElse? (dict? (dict? (list? text?))) .empty moves
    let starts ← orElse? (list? nat?) [] starts
    let finals ← orElse? (list? nat?) [] finals
    return ⟨states, alphabet, marker, moves, .ofList starts, .ofList finals⟩
  | _ => none

/-- The table that a text holds, which must make sense. -/
def ofDocument (text : String) : Except Error Table :=
  match (read? text).bind ofJson? with
  | none => .error .unreadable
  | some t => t.validate.map fun _ => t

end Table

end Acceptor
