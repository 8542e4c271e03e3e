/-
The subset construction: a deterministic table whose states stand for the sets of states that an
input can lead to. Sets are found breadth first and named `A`, `B`, …, `Z`, `AA`, `AB`, … in the
order in which they are found.
-/
import Acceptor.Table.Elimination
import Acceptor.Table.Refinement

namespace Acceptor

/-- The letter of a digit below 26. -/
def letter (digit : Nat) : Char :=
  Char.ofNat ('A'.toNat + digit)

/-- The letters of the name of the set found after `n` others: the numbers from 0 in bijective
base 26. -/
def subsetLetters (n : Nat) : List Char :=
  if n < 26 then [letter n] else subsetLetters (n / 26 - 1) ++ [letter (n % 26)]
termination_by n
decreasing_by omega

/-- The name of the set found after `n` others. -/
def subsetName (n : Nat) : String :=
  String.ofList (subsetLetters n)

/-- A deterministic table, and for each of its states the states that it stands for. -/
structure Dfa where
  table : Table
  subsets : Dict (List String)
deriving DecidableEq

/-- What is found so far: the sets in the order in which they were found, and the rows of the
first of them. -/
structure Exploration where
  found : List IndexSet
  rows : Dict (Dict (List String))

namespace Table

/-- The states that follow any of some states in a column. -/
def follow (t : Table) (s : IndexSet) (symbol : String) : Except Error IndexSet :=
  IndexSet.gather (t.targetIndices · symbol) s.toList

/-- Follows one more symbol from a set, and finds the set it leads to, unless that is empty. -/
def exploreSymbol (t : Table) (current : IndexSet)
    (acc : List IndexSet × Dict (List String)) (symbol : String) :
    Except Error (List IndexSet × Dict (List String)) := do
  let next ← t.follow current symbol
  if next.isEmpty then return (acc.1, acc.2.insert symbol [])
  match acc.1.findIdx? (· = next) with
  | some k => return (acc.1, acc.2.insert symbol [subsetName k])
  | none => return (acc.1 ++ [next], acc.2.insert symbol [subsetName acc.1.length])

/-- Fills the rows of the sets found, from the one after the first `k` on. It is a fault if more
than `fuel` of them have none. -/
def explore (t : Table) : Nat → Nat → Exploration → Except Error Exploration
  | 0, k, e =>
    match e.found[k]? with
    | none => .ok e
    | some _ => .error (.noSuchEntry k (Nat.pow 2 t.size))
  | fuel + 1, k, e =>
    match e.found[k]? with
    | none => .ok e
    | some current => do
      let (found, row) ← t.symbols.foldlM (t.exploreSymbol current) (e.found, .empty)
      t.explore fuel (k + 1) ⟨found, e.rows.insert (subsetName k) row⟩

/-- The deterministic table of a table without moves without reading. There are fewer sets to
find than `2 ^ n` for `n` states. -/
def determinize (t : Table) : Except Error Dfa := do
  t.validate
  if t.states.isEmpty then throw .noStates
  if let some state := t.firstEpsilonState? then throw (.epsilonMoves state)
  let e ← t.explore (Nat.pow 2 t.size) 0 ⟨[t.initial], .empty⟩
  let named : Dict IndexSet := .ofList (e.found.mapIdx fun k s => (subsetName k, s))
  let table : Table :=
    { states := named.keys
      alphabet := t.symbols
      marker := t.marker
      moves := e.rows
      starts := .positions (·.1 = subsetName 0) named.entries
      finals := .positions (·.2.any t.isFinal) named.entries }
  let members ← named.entries.mapM fun x => (t.namesAt x.2).map (x.1, ·)
  return ⟨table, .ofList members⟩

/-- The deterministic table of any table: its columns are made disjoint and its moves without
reading removed first. -/
def toDfa (t : Table) : Except Error Dfa := do
  let refined ← t.refine
  let epsilonFree ← refined.removeEpsilon
  epsilonFree.determinize

end Table

end Acceptor
