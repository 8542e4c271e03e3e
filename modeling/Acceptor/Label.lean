/-
Edge labels: what an edge reads, the text of a label, and reading a label back from its text.
Main statement: a label reads what its intervals hold, or, where it is cofinite, what none of them
holds (`reads_eq_any`).
-/
import Acceptor.Error
import Acceptor.Interval

namespace Acceptor

/-- What an edge reads. -/
inductive Label
  /-- Nothing: the edge is followed without reading. -/
  | epsilon
  /-- Any single character. -/
  | any
  /-- One given character. -/
  | literal (char : Char)
  /-- A character from `lo` to `hi`. -/
  | range (lo hi : Char)
  /-- One of the listed characters. -/
  | oneOf (chars : List Char)
  /-- A character outside all the intervals. -/
  | noneOf (intervals : List Interval)
deriving DecidableEq

namespace Label

/-- Whether an edge with this label reads the character. -/
def reads : Label → Char → Bool
  | epsilon, _ => false
  | any, _ => true
  | literal char, c => char = c
  | range lo hi, c => Interval.contains ⟨lo, hi⟩ c
  | oneOf chars, c => c ∈ chars
  | noneOf intervals, c => !intervals.any (·.contains c)

def isEpsilon : Label → Bool
  | epsilon => true
  | _ => false

/-- Whether the label reads all but finitely many characters. -/
def isCofinite : Label → Bool
  | any => true
  | noneOf _ => true
  | _ => false

/-- The intervals that decide the label: those it reads, or, where it is cofinite, those it does
not read. -/
def intervals : Label → List Interval
  | epsilon => []
  | any => []
  | literal char => [.single char]
  | range lo hi => [⟨lo, hi⟩]
  | oneOf chars => chars.map .single
  | noneOf intervals => intervals

/-- A label reads a character exactly when one of its intervals holds it, or, where it is
cofinite, when none does. -/
theorem reads_eq_any (l : Label) (c : Char) :
    l.reads c = (l.isCofinite ^^ l.intervals.any (·.contains c)) := by
  rw [Bool.eq_iff_iff]
  cases l <;> simp [reads, isCofinite, intervals]

/-! ## Text -/

/-- The character that stands for reading nothing. -/
def epsilonChar : Char := 'ε'

/-- The word that stands for reading nothing. -/
def epsilonWord : List Char := "epsilon".toList

/-- The characters of the text of a label. -/
def chars : Label → List Char
  | epsilon => [epsilonChar]
  | any => ['.']
  | literal char => [char]
  | range lo hi => ['[', lo, '-', hi, ']']
  | oneOf chars => '{' :: chars ++ ['}']
  | noneOf intervals => '[' :: '^' :: intervals.flatMap (fun i => [i.lo, '-', i.hi]) ++ [']']

/-- The text of a label, as the columns of a table show it. -/
def text (l : Label) : String :=
  String.ofList l.chars

/-- The intervals of a text of triples `x-y`, each with `x ≤ y`. -/
def readIntervals? : List Char → Option (List Interval)
  | [] => some []
  | lo :: '-' :: hi :: rest =>
    if lo ≤ hi then (readIntervals? rest).map (⟨lo, hi⟩ :: ·) else none
  | _ => none

/-- What stands before the last character, if that is the given one. -/
def before? (last : Char) (cs : List Char) : Option (List Char) :=
  if cs.getLast? = some last then some cs.dropLast else none

/-- The label written as `[^x-y…]`, given what follows the `[^`: at least one interval. -/
def readNoneOf? (cs : List Char) : Option Label :=
  match (before? ']' cs).bind readIntervals? with
  | some (i :: rest) => some (.noneOf (i :: rest))
  | _ => none

/-- The label written as `[x-y]` with `x ≤ y`, given what follows the `[`. -/
def readRange? : List Char → Option Label
  | [lo, '-', hi, ']'] => if lo ≤ hi then some (.range lo hi) else none
  | _ => none

/-- The label written as a set in braces, given what follows the opening one: at least one
member, and any character may be one. -/
def readOneOf? (cs : List Char) : Option Label :=
  match before? '}' cs with
  | some (c :: rest) => some (.oneOf (c :: rest))
  | _ => none

/-- The label that a text stands for. -/
def read? (cs : List Char) : Option Label :=
  if cs = [epsilonChar] ∨ cs = epsilonWord then some .epsilon
  else match cs with
    | ['.'] => some .any
    | [c] => some (.literal c)
    | '[' :: '^' :: rest => (readNoneOf? rest).or (readRange? ('^' :: rest))
    | '[' :: rest => readRange? rest
    | '{' :: rest => readOneOf? rest
    | _ => none

/-- The label that a column of a table stands for. -/
def ofText (text : String) : Except Error Label :=
  match read? text.toList with
  | some label => .ok label
  | none => .error (.invalidSymbol text)

theorem ofText_eq_ok_iff {s : String} {l : Label} : ofText s = .ok l ↔ read? s.toList = some l := by
  unfold ofText
  split <;> simp_all

end Label

end Acceptor
