/-
JSON documents as trees. Numbers and strings are kept as they are written, so that what is not
needed of a document need not have a meaning.
-/

namespace Acceptor

/-- A JSON value. The literal of a string is what stands between its quotes. -/
inductive Json
  | null
  | bool (b : Bool)
  | number (literal : List Char)
  | string (literal : List Char)
  | array (items : List Json)
  | object (members : List (List Char × Json))

end Acceptor
