/-
Automata as tables: for each state and symbol the states that follow, by name, with the start and
final states by position. A symbol is the text of a label; one text, the marker, stands for
moving without reading. Main statements: what is stored after a change (`targets_setTargets`),
and where a state is found (`index?_eq_some_iff`).
-/
import Acceptor.Dict
import Acceptor.IndexSet
import Acceptor.Label

namespace Acceptor

/-- An automaton as a table. -/
structure Table where
  /-- The names of the states. -/
  states : List String
  /-- The columns, which may include the marker. -/
  alphabet : List String
  /-- The column that is followed without reading. -/
  marker : String
  /-- For each state and each column the names of the states that follow. -/
  moves : Dict (Dict (List String))
  /-- The positions of the start states. -/
  starts : IndexSet
  /-- The positions of the final states. -/
  finals : IndexSet
deriving DecidableEq

namespace Table

/-- The usual marker, the text of the label that reads nothing. -/
def usualMarker : String := Label.epsilon.text

/-- A table without moves. -/
def ofStates (states alphabet : List String) (marker : String) : Table :=
  ⟨states, alphabet, marker, .empty, .empty, .empty⟩

def size (t : Table) : Nat :=
  t.states.length

/-- The first position of a state. -/
def index? (t : Table) (state : String) : Option Nat :=
  t.states.findIdx? (· = state)

def isMarker (t : Table) (symbol : String) : Bool :=
  symbol = t.marker

/-- The columns other than the marker. -/
def symbols (t : Table) : List String :=
  t.alphabet.filter (!t.isMarker ·)

/-- The states stored for a state and a column. -/
def targets (t : Table) (state symbol : String) : List String :=
  match t.moves.get? state with
  | none => []
  | some row => (row.get? symbol).getD []

/-- Stores the states that follow, instead of those stored before. -/
def setTargets (t : Table) (state symbol : String) (targets : List String) : Table :=
  let row := (t.moves.get? state).getD .empty
  { t with moves := t.moves.insert state (row.insert symbol targets) }

/-- Stores one more state that follows, unless it is stored already. -/
def addTarget (t : Table) (state symbol target : String) : Table :=
  let stored := t.targets state symbol
  t.setTargets state symbol (if target ∈ stored then stored else stored ++ [target])

/-- The first position of a state, which must be there. -/
def index (t : Table) (state : String) : Except Error Nat :=
  match t.index? state with
  | some i => .ok i
  | none => .error (.unknownState state)

/-- The positions of the states that follow the one at a position. -/
def targetIndices (t : Table) (i : Nat) (symbol : String) : Except Error IndexSet :=
  match t.states[i]? with
  | none => .error (.indexOutOfRange i t.size)
  | some state => ((t.targets state symbol).mapM t.index).map .ofList

def markStart (t : Table) (i : Nat) : Table :=
  { t with starts := t.starts.insert i }

def markFinal (t : Table) (i : Nat) : Table :=
  { t with finals := t.finals.insert i }

def isStart (t : Table) (i : Nat) : Bool :=
  i ∈ t.starts

def isFinal (t : Table) (i : Nat) : Bool :=
  i ∈ t.finals

/-- Where a run starts: at the start states, or at the first state where none is marked. -/
def initial (t : Table) : IndexSet :=
  if t.starts.isEmpty then .singleton 0 else t.starts

/-- The first state that moves without reading. -/
def firstEpsilonState? (t : Table) : Option String :=
  t.states.find? fun state => !(t.targets state t.marker).isEmpty

def hasEpsilonMoves (t : Table) : Bool :=
  t.firstEpsilonState?.isSome

/-- Whether no state moves without reading and at most one state is stored for each state and
column. -/
def isDeterministic (t : Table) : Bool :=
  !t.hasEpsilonMoves && t.moves.values.all fun row => row.values.all fun ts => ts.length ≤ 1

/-- The names of the states at some positions. -/
def namesAt (t : Table) (s : IndexSet) : Except Error (List String) :=
  s.toList.mapM (entry t.states)

/-! ## What is stored -/

theorem targets_setTargets (t : Table) (state symbol : String) (ts : List String)
    (state' symbol' : String) : (t.setTargets state symbol ts).targets state' symbol' =
      if state' = state ∧ symbol' = symbol then ts else t.targets state' symbol' := by
  simp only [targets, setTargets, Dict.get?_insert]
  by_cases hs : state' = state
  · subst hs
    by_cases hc : symbol' = symbol
    · simp [Dict.get?_insert, hc]
    · cases t.moves.get? state' <;> simp [Dict.get?_insert, hc]
  · simp [hs]

theorem index?_eq_some_iff {t : Table} {state : String} {i : Nat} :
    t.index? state = some i ↔ t.states[i]? = some state ∧ ∀ j < i, t.states[j]? ≠ some state := by
  rw [index?, List.findIdx?_eq_some_iff_getElem]
  constructor
  · rintro ⟨hi, h, hj⟩
    refine ⟨by simpa [List.getElem?_eq_some_iff, hi] using h, fun j hlt he => ?_⟩
    obtain ⟨hlen, he⟩ := List.getElem?_eq_some_iff.1 he
    exact hj j hlt (by simpa using he)
  · rintro ⟨h, hj⟩
    obtain ⟨hi, h⟩ := List.getElem?_eq_some_iff.1 h
    refine ⟨hi, by simpa using h, fun j hlt he => hj j hlt ?_⟩
    exact List.getElem?_eq_some_iff.2 ⟨Nat.lt_trans hlt hi, by simpa using he⟩

theorem index?_eq_none_iff {t : Table} {state : String} :
    t.index? state = none ↔ state ∉ t.states := by
  simp only [index?, List.findIdx?_eq_none_iff, decide_eq_false_iff_not]
  exact ⟨fun h hm => h _ hm rfl, fun h _ hx he => h (he ▸ hx)⟩

end Table

end Acceptor
