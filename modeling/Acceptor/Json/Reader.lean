/-
Reading a JSON document. Every value is checked for its form, also where it has no meaning to the
reader.
-/
import Acceptor.Json
import Acceptor.Json.Literal

namespace Acceptor.Json

/-- Whether a character only separates the parts of a document. -/
def isSeparator (c : Char) : Bool :=
  c = ' ' || c = '\t' || c = '\n' || c = '\r'

/-- What is left after separators. -/
def skip (cs : List Char) : List Char :=
  cs.dropWhile isSeparator

/-- What is left after a text that must come next. -/
def after? : List Char → List Char → Option (List Char)
  | [], cs => some cs
  | _ :: _, [] => none
  | a :: expected, c :: cs => if a = c then after? expected cs else none

/-- The literal of a string, given what follows its opening quote, and what follows the closing
one. Control characters must be escaped. -/
def stringLiteral? : List Char → Option (List Char × List Char)
  | [] => none
  | '"' :: rest => some ([], rest)
  | '\\' :: 'u' :: a :: b :: c :: d :: rest =>
    if (hexValue4? a b c d).isSome then
      (stringLiteral? rest).map fun s => ('\\' :: 'u' :: a :: b :: c :: d :: s.1, s.2)
    else none
  | '\\' :: c :: rest =>
    if (shortEscape? c).isSome then (stringLiteral? rest).map fun s => ('\\' :: c :: s.1, s.2)
    else none
  | c :: rest =>
    if c.toNat < 0x20 ∨ c = '\\' then none
    else (stringLiteral? rest).map fun s => (c :: s.1, s.2)

/-- At least one digit, and what follows the digits. -/
def someDigits? (cs : List Char) : Option (List Char × List Char) :=
  if (cs.takeWhile Char.isDigit).isEmpty then none
  else some (cs.takeWhile Char.isDigit, cs.dropWhile Char.isDigit)

/-- The whole part of a number: a zero, or digits that do not start with one. -/
def wholeLiteral? : List Char → Option (List Char × List Char)
  | '0' :: rest => if (rest.head?.any Char.isDigit) then none else some (['0'], rest)
  | cs => someDigits? cs

/-- The fraction of a number, if there is one. -/
def fractionLiteral? : List Char → Option (List Char × List Char)
  | '.' :: rest => (someDigits? rest).map fun s => ('.' :: s.1, s.2)
  | cs => some ([], cs)

/-- The sign of an exponent, if there is one. -/
def signLiteral : List Char → List Char × List Char
  | '+' :: rest => (['+'], rest)
  | '-' :: rest => (['-'], rest)
  | cs => ([], cs)

/-- The exponent of a number, if there is one. -/
def exponentLiteral? : List Char → Option (List Char × List Char)
  | [] => some ([], [])
  | c :: rest =>
    if c = 'e' ∨ c = 'E' then
      let (sign, rest) := signLiteral rest
      (someDigits? rest).map fun s => (c :: sign ++ s.1, s.2)
    else some ([], c :: rest)

/-- The literal of a number without its minus sign, and what follows it. -/
def unsignedLiteral? (cs : List Char) : Option (List Char × List Char) := do
  let (whole, rest) ← wholeLiteral? cs
  let (fraction, rest) ← fractionLiteral? rest
  let (exponent, rest) ← exponentLiteral? rest
  return (whole ++ fraction ++ exponent, rest)

/-- The literal of a number, and what follows it. -/
def numberLiteral? : List Char → Option (List Char × List Char)
  | '-' :: rest => (unsignedLiteral? rest).map fun s => ('-' :: s.1, s.2)
  | cs => unsignedLiteral? cs

mutual

/-- A value and what follows it, in at most `fuel` steps. -/
def value? : Nat → List Char → Option (Json × List Char)
  | 0, _ => none
  | fuel + 1, cs =>
    match skip cs with
    | 'n' :: rest => (after? ['u', 'l', 'l'] rest).map (.null, ·)
    | 't' :: rest => (after? ['r', 'u', 'e'] rest).map (.bool true, ·)
    | 'f' :: rest => (after? ['a', 'l', 's', 'e'] rest).map (.bool false, ·)
    | '"' :: rest => (stringLiteral? rest).map fun s => (.string s.1, s.2)
    | '[' :: rest =>
      match skip rest with
      | ']' :: rest => some (.array [], rest)
      | rest => (items? fuel rest).map fun s => (.array s.1, s.2)
    | '{' :: rest =>
      match skip rest with
      | '}' :: rest => some (.object [], rest)
      | rest => (members? fuel rest).map fun s => (.object s.1, s.2)
    | cs => (numberLiteral? cs).map fun s => (.number s.1, s.2)

/-- The items of an array up to its closing bracket, at least one. -/
def items? : Nat → List Char → Option (List Json × List Char)
  | 0, _ => none
  | fuel + 1, cs => do
    let (item, rest) ← value? fuel cs
    match skip rest with
    | ']' :: rest => return ([item], rest)
    | ',' :: rest =>
      let (more, rest) ← items? fuel rest
      return (item :: more, rest)
    | _ => none

/-- The members of an object up to its closing brace, at least one. -/
def members? : Nat → List Char → Option (List (List Char × Json) × List Char)
  | 0, _ => none
  | fuel + 1, cs => do
    let rest ← after? ['"'] (skip cs)
    let (key, rest) ← stringLiteral? rest
    let rest ← after? [':'] (skip rest)
    let (value, rest) ← value? fuel rest
    match skip rest with
    | '}' :: rest => return ([(key, value)], rest)
    | ',' :: rest =>
      let (more, rest) ← members? fuel rest
      return ((key, value) :: more, rest)
    | _ => none

end

/-- The value of a whole document. Each step reads a character, or goes on to the parts of a
value. -/
def read? (text : String) : Option Json := do
  let cs := text.toList
  let (value, rest) ← value? (2 * cs.length + 2) cs
  if (skip rest).isEmpty then return value
  none

end Acceptor.Json
