/-
Tokens of the expression language: grouping, the three operators and the atoms.
-/
import Acceptor.Label

namespace Acceptor

/-- How often what stands before an operator is repeated. -/
inductive Repetition
  /-- `*`: any number of times. -/
  | star
  /-- `^`: at least once. -/
  | plus
deriving DecidableEq

/-- The character of the operator. -/
def Repetition.char : Repetition → Char
  | star => '*'
  | plus => '^'

/-- A token of an expression. -/
inductive Token
  /-- `(` opens a group. -/
  | groupOpen
  /-- `)` closes a group. -/
  | groupClose
  /-- `+` separates alternatives. -/
  | union
  /-- `*` and `^` repeat what stands before them. -/
  | repetition (r : Repetition)
  /-- An atom reads what its label reads. -/
  | atom (label : Label)
deriving DecidableEq

namespace Token

/-- Whether the token applies to what stands before it. -/
def isRepetition : Token → Bool
  | repetition _ => true
  | _ => false

/-- The character of an operator. -/
def operatorChar? : Token → Option Char
  | repetition r => some r.char
  | union => some '+'
  | _ => none

/-- The characters of the text of a token. -/
def chars : Token → List Char
  | groupOpen => ['(']
  | groupClose => [')']
  | union => ['+']
  | repetition r => [r.char]
  | atom label => label.chars

/-- The text of a token. -/
def text (t : Token) : String :=
  String.ofList t.chars

end Token

end Acceptor
