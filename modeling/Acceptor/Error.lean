/-
What can go wrong, as causes: faults in the text of an expression (`SyntaxError`) and faults of
the automata built from it or read from a file (`Error`), each with its wording.
-/

namespace Acceptor

/-- A fault in an expression. Positions count characters from 0. -/
inductive SyntaxError
  /-- A character that starts no lexeme. -/
  | unexpectedChar (char : Char) (position : Nat)
  /-- A `(` that is never closed. -/
  | unclosedGroup (position : Nat)
  /-- A `)` that closes no group. -/
  | unmatchedParen (position : Nat)
  /-- A `[` that no `]` follows. -/
  | unclosedRange (position : Nat)
  /-- A bracketed text that is not `[x-y]` with `x ≤ y`. -/
  | invalidRange (text : String) (position : Nat)
  /-- An opening brace that no closing brace follows. -/
  | unclosedSet (position : Nat)
  /-- A pair of braces with nothing between them. -/
  | emptySet (position : Nat)
  /-- A union with nothing on one side of a `+`. -/
  | emptyAlternative (text : String)
  /-- A postfix operator with nothing before it. -/
  | danglingOperator (operator : Char)
  /-- A run of tokens that fits no rule. -/
  | undecomposable (text : String)
  /-- A run of tokens that closes a group it did not open; lexing never yields one. -/
  | overclosed
deriving DecidableEq

/-- A fault of an automaton or of a table. -/
inductive Error
  /-- The expression is malformed. -/
  | expression (cause : SyntaxError)
  /-- No start node to walk from. -/
  | missingStart
  /-- No final node to reach. -/
  | missingFinal
  /-- Two states share a name. -/
  | duplicateState (name : String)
  /-- A name that no state has. -/
  | unknownState (name : String)
  /-- A column that the alphabet does not list. -/
  | unknownSymbol (symbol : String)
  /-- A state index that is not below the number of states. -/
  | indexOutOfRange (index size : Nat)
  /-- An automaton without states where one is needed. -/
  | noStates
  /-- A state that still moves without reading. -/
  | epsilonMoves (state : String)
  /-- A column that does not read as a label. -/
  | invalidSymbol (symbol : String)
  /-- An edge that still carries an expression. -/
  | pendingExpression (source target text : String)
  /-- A text that does not hold a table. -/
  | unreadable
  /-- An entry looked up past the end of its list, or a step past the last one that there can be.
  No operation that checks its arguments ends so: the caller named a node or a state that does not
  exist. -/
  | noSuchEntry (index size : Nat)
deriving DecidableEq

/-- The wording of a fault in an expression. -/
def SyntaxError.message : SyntaxError → String
  | unexpectedChar char position => s!"unexpected character '{char}' at position {position}"
  | unclosedGroup position => s!"unclosed group opened at position {position}"
  | unmatchedParen position => s!"unmatched ')' at position {position}"
  | unclosedRange position => s!"unclosed range opened at position {position}"
  | invalidRange text position => s!"invalid range '{text}' at position {position}"
  | unclosedSet position => s!"unclosed set opened at position {position}"
  | emptySet position => s!"empty set at position {position}"
  | emptyAlternative text => s!"union with an empty alternative in '{text}'"
  | danglingOperator operator => s!"operator '{operator}' has no operand"
  | undecomposable text => s!"cannot decompose '{text}'"
  | overclosed => "a group is closed that was not opened"

/-- The wording of a fault. -/
def Error.message : Error → String
  | expression cause => "parse error: " ++ cause.message
  | missingStart => "no start state configured"
  | missingFinal => "no final state configured"
  | duplicateState name => s!"duplicate state '{name}'"
  | unknownState name => s!"unknown state '{name}'"
  | unknownSymbol symbol => s!"unknown symbol '{symbol}'"
  | indexOutOfRange index size => s!"state index {index} out of range for {size} states"
  | noStates => "automaton has no states"
  | epsilonMoves state => s!"state '{state}' still has epsilon transitions"
  | invalidSymbol symbol => s!"symbol '{symbol}' is not a valid label"
  | pendingExpression source target text =>
    s!"edge {source} -> {target} still carries expression '{text}'"
  | unreadable => "serialization error: the text holds no table"
  | noSuchEntry index size => s!"no entry {index} in a list of {size}"

theorem map_eq_ok_iff {ε α β : Type} {f : α → β} {x : Except ε α} {b : β} :
    x.map f = .ok b ↔ ∃ a, x = .ok a ∧ f a = b := by
  cases x <;> simp [Except.map]

/-- The entry at an index, or the fault that there is none. -/
def entry {α : Type} (xs : List α) (index : Nat) : Except Error α :=
  match xs[index]? with
  | some x => .ok x
  | none => .error (.noSuchEntry index xs.length)

@[simp] theorem entry_eq_ok_iff {α : Type} {xs : List α} {index : Nat} {x : α} :
    entry xs index = .ok x ↔ xs[index]? = some x := by
  unfold entry
  split <;> simp_all

end Acceptor
