/-
Splitting an expression into tokens. A lexer holds what is left of the expression and can be
asked for the next token again and again, also after a fault. Main statement: every token that it
yields shortens the rest (`length_lt_of_next`), so `tokens` reaches the end or a fault.
-/
import Acceptor.Text.Alphanumeric
import Acceptor.Text.Blank
import Acceptor.Token

namespace Acceptor

open Text

/-- The state of splitting an expression into tokens. -/
structure Lexer where
  /-- The characters not yet consumed. -/
  rest : List Char
  /-- How many characters are consumed. -/
  position : Nat
  /-- The positions of the groups that are open, innermost first. -/
  opened : List Nat
deriving DecidableEq

namespace Lexer

/-- A lexer at the start of an expression. -/
def ofText (text : String) : Lexer :=
  ⟨text.toList, 0, []⟩

/-- The lexer after `count` more characters. -/
def advance (l : Lexer) (count : Nat) : Lexer :=
  { l with rest := l.rest.drop count, position := l.position + count }

/-- The lexer at the next character that is not blank. -/
def skipBlanks (l : Lexer) : Lexer :=
  l.advance (l.rest.takeWhile isBlank).length

/-- What a call yields: a token, the end of the expression or a fault. -/
abbrev Answer := Except SyntaxError (Option Token)

/-- The bracketed text that the rest starts with, up to the first closing character. -/
def bracketed? (close : Char) (l : Lexer) : Option (List Char) :=
  let inner := l.rest.takeWhile (· ≠ close)
  if inner.length < l.rest.length then some (inner ++ [close]) else none

/-- Reads `[x-y]`, standing at the `[`. A text that is no such range is consumed all the same. -/
def readRange (l : Lexer) : Answer × Lexer :=
  match l.bracketed? ']' with
  | none => (.error (.unclosedRange l.position), l)
  | some text =>
    match Label.read? text with
    | some (.range lo hi) => (.ok (some (.atom (.range lo hi))), l.advance text.length)
    | _ => (.error (.invalidRange (String.ofList text) l.position), l.advance text.length)

/-- Reads a set in braces, standing at the opening one. An empty set is consumed all the same. -/
def readSet (l : Lexer) : Answer × Lexer :=
  match l.bracketed? '}' with
  | none => (.error (.unclosedSet l.position), l)
  | some text =>
    match text.tail.dropLast with
    | [] => (.error (.emptySet l.position), l.advance text.length)
    | members => (.ok (some (.atom (.oneOf members))), l.advance text.length)

/-- Yields a token of `length` characters. -/
def yield (l : Lexer) (token : Token) (length : Nat) : Answer × Lexer :=
  (.ok (some token), l.advance length)

/-- Reads the lexeme that starts with `c`, standing at it. -/
def lexeme (l : Lexer) (c : Char) : Answer × Lexer :=
  match c with
  | '(' => { l with opened := l.position :: l.opened }.yield .groupOpen 1
  | ')' =>
    match l.opened with
    | [] => (.error (.unmatchedParen l.position), l)
    | _ :: outer => { l with opened := outer }.yield .groupClose 1
  | '+' => l.yield .union 1
  | '*' => l.yield (.repetition .star) 1
  | '^' => l.yield (.repetition .plus) 1
  | '.' => l.yield (.atom .any) 1
  | '[' => l.readRange
  | '{' => l.readSet
  | c =>
    if c = Label.epsilonChar then l.yield (.atom .epsilon) 1
    else if Label.epsilonWord.isPrefixOf l.rest then
      l.yield (.atom .epsilon) Label.epsilonWord.length
    else if isAlphanumeric c then l.yield (.atom (.literal c)) 1
    else (.error (.unexpectedChar c l.position), l)

/-- The next token, `none` at the end, and the lexer after it. At the end the oldest group that
is still open is a fault. -/
def next (l : Lexer) : Answer × Lexer :=
  let l := l.skipBlanks
  match l.rest with
  | [] =>
    match l.opened.getLast? with
    | some position => (.error (.unclosedGroup position), l)
    | none => (.ok none, l)
  | c :: _ => l.lexeme c

/-! ## Progress -/

theorem length_advance_lt {l : Lexer} {count : Nat} (hl : l.rest ≠ []) (hc : 0 < count) :
    (l.advance count).rest.length < l.rest.length := by
  have := List.length_pos_iff.2 hl
  simp only [advance, List.length_drop]
  omega

theorem length_skipBlanks_le (l : Lexer) : l.skipBlanks.rest.length ≤ l.rest.length := by
  simp [skipBlanks, advance]

theorem length_pos_of_bracketed? {close : Char} {l : Lexer} {text : List Char}
    (h : l.bracketed? close = some text) : 0 < text.length := by
  simp only [bracketed?, Option.ite_none_right_eq_some, Option.some.injEq] at h
  rw [← h.2]
  simp

theorem length_lt_of_readRange {l l' : Lexer} {t : Token} (hl : l.rest ≠ [])
    (h : l.readRange = (.ok (some t), l')) : l'.rest.length < l.rest.length := by
  unfold readRange at h
  split at h
  · cases h
  · rename_i text htext
    split at h
    · cases h
      exact length_advance_lt hl (length_pos_of_bracketed? htext)
    · cases h

theorem length_lt_of_readSet {l l' : Lexer} {t : Token} (hl : l.rest ≠ [])
    (h : l.readSet = (.ok (some t), l')) : l'.rest.length < l.rest.length := by
  unfold readSet at h
  split at h
  · cases h
  · rename_i text htext
    split at h
    · cases h
    · cases h
      exact length_advance_lt hl (length_pos_of_bracketed? htext)

theorem length_lt_of_yield {rest : List Char} {position : Nat} {opened : List Nat} {l' : Lexer}
    {t u : Token} {count : Nat} (hl : rest ≠ []) (hc : 0 < count)
    (h : yield ⟨rest, position, opened⟩ u count = (.ok (some t), l')) :
    l'.rest.length < rest.length := by
  cases h
  exact length_advance_lt hl hc

theorem length_lt_of_lexeme {l l' : Lexer} {c : Char} {t : Token} (hl : l.rest ≠ [])
    (h : l.lexeme c = (.ok (some t), l')) : l'.rest.length < l.rest.length := by
  unfold lexeme at h
  split at h
  case h_2 =>
    split at h
    · cases h
    · exact length_lt_of_yield hl Nat.one_pos h
  case h_7 => exact length_lt_of_readRange hl h
  case h_8 => exact length_lt_of_readSet hl h
  case h_9 =>
    split at h
    · exact length_lt_of_yield hl Nat.one_pos h
    split at h
    · exact length_lt_of_yield hl (by decide) h
    split at h
    · exact length_lt_of_yield hl Nat.one_pos h
    · cases h
  all_goals exact length_lt_of_yield hl Nat.one_pos h

/-- A token is never empty: what is left gets shorter. -/
theorem length_lt_of_next {l l' : Lexer} {t : Token} (h : l.next = (.ok (some t), l')) :
    l'.rest.length < l.rest.length := by
  simp only [next] at h
  split at h
  · split at h <;> cases h
  · rename_i hrest
    exact Nat.lt_of_lt_of_le (length_lt_of_lexeme (by simp [hrest]) h) (length_skipBlanks_le l)

/-! ## All tokens -/

/-- The tokens up to the end of the expression, or the first fault. -/
def tokens (l : Lexer) : Except SyntaxError (List Token) :=
  match _h : l.next with
  | (.error fault, _) => .error fault
  | (.ok none, _) => .ok []
  | (.ok (some token), rest) => rest.tokens.map (token :: ·)
termination_by l.rest.length
decreasing_by exact length_lt_of_next _h

end Lexer

/-- The tokens of an expression. -/
def Token.ofText (text : String) : Except SyntaxError (List Token) :=
  (Lexer.ofText text).tokens

end Acceptor
