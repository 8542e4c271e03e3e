/-
The rule by which a pattern is taken apart. Rules are tried in a fixed order, so a trailing
operator applies to everything before it: `ab*` repeats `ab`.
-/
import Acceptor.Pattern

namespace Acceptor

/-- One step of taking a pattern apart. -/
inductive Decomposition
  /-- A group is replaced by what is inside it. -/
  | group (inner : Pattern)
  /-- A union is split into its alternatives. -/
  | union (parts : List Pattern)
  /-- A repetition is split into its operand and the operator. -/
  | repetition (r : Repetition) (operand : Pattern)
  /-- A concatenation is split into its pieces. -/
  | chain (pieces : List Pattern)
  /-- A single label needs no further step. -/
  | atom (label : Label)
deriving DecidableEq

namespace Decomposition

/-- The rule that applies to a pattern. -/
def ofPattern (p : Pattern) : Except SyntaxError Decomposition := do
  if p.isEmpty then return .atom .epsilon
  if let some inner := Pattern.interior? p then return .group inner
  if let some parts ← Pattern.alternatives? p then return .union parts
  if let some (operand, r) ← Pattern.operand? p then return .repetition r operand
  match ← Pattern.pieces p with
  | [piece] =>
    match Pattern.atom? piece with
    | some label => return .atom label
    | none => throw (.undecomposable (Pattern.text p))
  | [] => throw (.undecomposable (Pattern.text p))
  | pieces => return .chain pieces

/-- The name of the rule. -/
def name : Decomposition → String
  | group _ => "parentheses"
  | union _ => "union"
  | repetition .plus _ => "kleene plus"
  | repetition .star _ => "kleene star"
  | chain _ => "concatenation"
  | atom _ => "atom"

/-- The patterns that are left to take apart. -/
def parts : Decomposition → List Pattern
  | group inner => [inner]
  | union parts => parts
  | repetition _ operand => [operand]
  | chain pieces => pieces
  | atom _ => []

end Decomposition

end Acceptor
