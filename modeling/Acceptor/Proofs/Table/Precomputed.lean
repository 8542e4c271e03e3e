/-
Removing the moves without reading with closures that were found before, for the same table or for
another one, and from a table that need not make sense. Main statement: closures of another number
of states are refused, nothing else goes wrong than an entry that names no state, and what is made
starts where the table does and is final where a closure holds a final state
(`removeEpsilonWith_exact`). No list is looked up past its end, because closures that are found keep
below their own number.
-/
import Acceptor.Proofs.Table.Elimination

namespace Acceptor

variable {t u r : Table} {c : Closures} {s : IndexSet} {e : Error} {i j : Nat}
  {symbol : String}

/-! ## Closures of any table -/

/-- Each closure holds its own state and no position past the last one. -/
structure Closures.Bounded (c : Closures) : Prop where
  self_mem : ∀ i s, c.of i = .ok s → i ∈ s
  lt : ∀ i s, c.of i = .ok s → ∀ j ∈ s, j < c.size

/-- A closure that was found for a table holds what its state reaches there. -/
theorem Table.mem_of_closures (hc : u.closures = .ok c) (hs : c.of i = .ok s) :
    i < u.size ∧ ∀ j, j ∈ s ↔ u.SilentlyReaches i j := by
  obtain ⟨hsize, hof⟩ := finds_of_closures hc
  have hi : i < u.size := hsize ▸ (List.getElem?_eq_some_iff.1 (entry_eq_ok_iff.1 hs)).1
  exact ⟨hi, (hof i hi).mem_iff hs⟩

/-- Closures that are found keep below their own number. -/
theorem Table.bounded_of_closures (hc : u.closures = .ok c) : c.Bounded := by
  refine ⟨fun i s hs => ((mem_of_closures hc hs).2 i).2 .refl, fun i s hs j hj => ?_⟩
  obtain ⟨hi, hmem⟩ := mem_of_closures hc hs
  exact (finds_of_closures hc).1 ▸ ((hmem j).1 hj).lt hi

namespace Closures.Bounded

theorem of_lt (hb : c.Bounded) (hi : i < c.size) :
    ∃ s, c.of i = .ok s ∧ i ∈ s ∧ ∀ j ∈ s, j < c.size := by
  have hs : c.of i = .ok c.sets[i] := entry_eq_ok_iff.2 (List.getElem?_eq_getElem hi)
  exact ⟨_, hs, hb.self_mem i _ hs, hb.lt i _ hs⟩

theorem exists_ofSet (hb : c.Bounded) (hs : ∀ i ∈ s, i < c.size) : ∃ r, c.ofSet s = .ok r :=
  IndexSet.exists_gather fun i hi => (hb.of_lt (hs i hi)).imp fun _ => And.left

theorem lt_of_ofSet {union : IndexSet} (hb : c.Bounded) (h : c.ofSet s = .ok union)
    (hj : j ∈ union) : j < c.size := by
  obtain ⟨i, -, closure, hclosure, hj⟩ := (IndexSet.mem_of_gather h).1 hj
  exact hb.lt i closure hclosure j hj

end Closures.Bounded

namespace Table

/-! ## Where the removal fails -/

/-- An entry of a state, in a column other than the marker, names what is no state. -/
def Dangles (t : Table) (name : String) : Prop :=
  ∃ state ∈ t.states, ∃ symbol ∈ t.symbols, name ∈ t.targets state symbol ∧ name ∉ t.states

theorem lt_of_reachedBy {reached : IndexSet} (hb : c.Bounded)
    (h : t.reachedBy c s symbol = .ok reached) (hj : j ∈ reached) : j < c.size := by
  obtain ⟨q, -, direct, hq, hj⟩ := (IndexSet.mem_of_gather h).1 hj
  obtain ⟨found, -, hdirect⟩ := bind_eq_ok_iff.1 hq
  exact hb.lt_of_ofSet hdirect hj

/-- From the members of a closure only an entry that names no state is in the way. -/
theorem dangles_of_reachedBy (hb : c.Bounded) (hsize : c.size = t.size)
    (hs : ∀ q ∈ s, q < t.size) (hsymbol : symbol ∈ t.symbols)
    (h : t.reachedBy c s symbol = .error e) : ∃ name, t.Dangles name ∧ e = .unknownState name := by
  obtain ⟨q, hq, he⟩ := IndexSet.exists_of_gather_eq_error h
  have hlt := hs q hq
  rcases bind_eq_error_iff.1 he with he | ⟨direct, hdirect, he⟩
  · obtain ⟨p, name, hp, hname, hmissing, rfl⟩ := exists_of_targetIndices_eq_error hlt he
    exact ⟨name, ⟨p, List.mem_of_getElem? hp, symbol, hsymbol, hname, hmissing⟩, rfl⟩
  · -- entries that name states name them below the size, where each has its closure
    obtain ⟨-, hmem⟩ := (findsUnless_targetIndices hlt symbol).of_eq_ok hdirect
    have hbelow : ∀ j ∈ direct, j < c.size := fun j hj => hsize ▸ ((hmem j).1 hj).lt.2
    obtain ⟨reached, hok⟩ := hb.exists_ofSet hbelow
    cases hok.symm.trans he

/-- What is reached has a new name, so the entries of a state fail only where the search does. -/
theorem dangles_of_reachedCells (hb : c.Bounded) (hsize : c.size = t.size)
    (hs : c.of i = .ok s) (h : t.reachedCells c t.newNames (s, i) = .error e) :
    ∃ name, t.Dangles name ∧ e = .unknownState name := by
  obtain ⟨symbol, hsymbol, he⟩ := exists_of_mapM_eq_error h
  rcases bind_eq_error_iff.1 he with he | ⟨reached, hreached, he⟩
  · exact dangles_of_reachedBy hb hsize (fun q hq => hsize ▸ hb.lt i s hs q hq) hsymbol he
  · have hnames : ∀ j ∈ reached, j < t.newNames.length := by
      intro j hj
      rw [List.length_map, List.length_range, ← hsize]
      exact lt_of_reachedBy hb hreached hj
    obtain ⟨ts, hts, -⟩ := exists_mapM_entry hnames
    rcases bind_eq_error_iff.1 he with he | ⟨ts', -, he⟩
    · cases hts.symm.trans he
    · cases he

theorem dangles_of_removeEpsilonWith (hb : c.Bounded) (hsize : c.size = t.size)
    (h : t.removeEpsilonWith c = .error e) : ∃ name, t.Dangles name ∧ e = .unknownState name := by
  rw [removeEpsilonWith_eq hsize, map_eq_error_iff] at h
  obtain ⟨⟨s, i⟩, hs, he⟩ := exists_of_mapM_eq_error h
  have hs : c.of i = .ok s := entry_eq_ok_iff.2 (List.mem_zipIdx_iff_getElem?.1 hs)
  exact dangles_of_reachedCells hb hsize hs he

/-! ## Where it succeeds -/

/-- Each state is in its own closure, so the entries of all states are looked at. -/
theorem not_dangles_of_removeEpsilonWith (hb : c.Bounded) (hsize : c.size = t.size)
    (h : t.removeEpsilonWith c = .ok r) (name : String) : ¬ t.Dangles name := by
  rintro ⟨state, hstate, symbol, hsymbol, hname, hmissing⟩
  obtain ⟨i, hi⟩ := List.mem_iff_getElem?.1 hstate
  have hlt : i < t.size := (List.getElem?_eq_some_iff.1 hi).1
  obtain ⟨s, hs, hself, -⟩ := hb.of_lt (hsize ▸ hlt)
  have hs : (s, i) ∈ c.sets.zipIdx := List.mem_zipIdx_iff_getElem?.2 (entry_eq_ok_iff.1 hs)
  rw [removeEpsilonWith_eq hsize] at h
  obtain ⟨rows, hrows, -⟩ := map_eq_ok_iff.1 h
  obtain ⟨cells, -, hcells⟩ := forall₂_mem_left (mapM_eq_ok_iff.1 hrows) hs
  obtain ⟨cell, -, hcell⟩ := forall₂_mem_left (mapM_eq_ok_iff.1 hcells) hsymbol
  obtain ⟨reached, hreached, -⟩ := bind_eq_ok_iff.1 hcell
  obtain ⟨direct, hdirect⟩ := IndexSet.forall_of_gather hreached i hself
  obtain ⟨found, hfound, -⟩ := bind_eq_ok_iff.1 hdirect
  obtain ⟨hnamed, -⟩ := (findsUnless_targetIndices hlt symbol).of_eq_ok hfound
  exact hnamed ⟨state, name, hi, hname, hmissing⟩

theorem size_eq_of_removeEpsilonWith (h : t.removeEpsilonWith c = .ok r) : c.size = t.size := by
  by_contra hne
  rw [removeEpsilonWith, if_pos hne] at h
  cases h

theorem starts_of_removeEpsilonWith (h : t.removeEpsilonWith c = .ok r) : r.starts = t.starts := by
  rw [removeEpsilonWith_eq (size_eq_of_removeEpsilonWith h)] at h
  obtain ⟨rows, -, rfl⟩ := map_eq_ok_iff.1 h
  exact starts_store _ _

theorem mem_finals_of_removeEpsilonWith (h : t.removeEpsilonWith c = .ok r) :
    i ∈ r.finals ↔ ∃ s, c.of i = .ok s ∧ ∃ j ∈ s, j ∈ t.finals := by
  rw [removeEpsilonWith_eq (size_eq_of_removeEpsilonWith h)] at h
  obtain ⟨rows, -, rfl⟩ := map_eq_ok_iff.1 h
  rw [finals_store, mem_finals_eliminatedBase]
  simp only [Closures.of, entry_eq_ok_iff]

/-! ## The outcomes -/

theorem removeEpsilonWith_eq_indexOutOfRange_iff (hb : c.Bounded) :
    t.removeEpsilonWith c = .error (.indexOutOfRange c.size t.size) ↔ c.size ≠ t.size := by
  constructor
  · intro h hsize
    obtain ⟨name, -, he⟩ := dangles_of_removeEpsilonWith hb hsize h
    cases he
  · intro hne
    rw [removeEpsilonWith, if_pos hne]
    rfl

theorem exists_removeEpsilonWith_iff (hb : c.Bounded) (hsize : c.size = t.size) :
    (∃ r, t.removeEpsilonWith c = .ok r) ↔ ∀ name, ¬ t.Dangles name := by
  refine ⟨fun ⟨r, hr⟩ => not_dangles_of_removeEpsilonWith hb hsize hr, fun hnone => ?_⟩
  cases h : t.removeEpsilonWith c with
  | error e =>
    obtain ⟨name, hname, -⟩ := dangles_of_removeEpsilonWith hb hsize h
    exact absurd hname (hnone name)
  | ok r => exact ⟨r, rfl⟩

theorem removeEpsilonWith_ne_noSuchEntry (hb : c.Bounded) (index size : Nat) :
    t.removeEpsilonWith c ≠ .error (.noSuchEntry index size) := by
  intro h
  by_cases hsize : c.size = t.size
  · obtain ⟨name, -, he⟩ := dangles_of_removeEpsilonWith hb hsize h
    cases he
  · rw [(removeEpsilonWith_eq_indexOutOfRange_iff hb).2 hsize] at h
    cases h

/-- The states whose own closures hold a final state are those that reach one. -/
theorem mem_finals_iff_of_closures (hc : t.closures = .ok c) (h : t.removeEpsilonWith c = .ok r) :
    i ∈ r.finals ↔ i < t.size ∧ ∃ j ∈ t.finals, t.SilentlyReaches i j := by
  rw [mem_finals_of_removeEpsilonWith h]
  constructor
  · rintro ⟨s, hs, j, hj, hf⟩
    obtain ⟨hi, hmem⟩ := mem_of_closures hc hs
    exact ⟨hi, j, hf, (hmem j).1 hj⟩
  · rintro ⟨hi, j, hf, hreach⟩
    obtain ⟨s, hs, hmem⟩ := (finds_of_closures hc).2 i hi
    exact ⟨s, hs, j, (hmem j).2 hreach, hf⟩

/-- Whatever table closures were found for, the closure of each of its states is there and holds
the state and no position past the last one. Removing the moves without reading with them from any
table refuses them if there are more or fewer of them than states. Otherwise it fails only with the
name of an entry that names no state, and succeeds where there is none. No list is looked up past
its end. What is made starts where the table does and is final where a closure holds a final state;
where the closures are those of the table, these are the states that reach a final one. -/
theorem removeEpsilonWith_exact (hc : u.closures = .ok c) :
    (∀ i < c.size, ∃ s, c.of i = .ok s ∧ i ∈ s ∧ ∀ j ∈ s, j < c.size) ∧
    (t.removeEpsilonWith c = .error (.indexOutOfRange c.size t.size) ↔ c.size ≠ t.size) ∧
    (c.size = t.size →
      (∀ e, t.removeEpsilonWith c = .error e → ∃ name, t.Dangles name ∧ e = .unknownState name) ∧
      ((∃ r, t.removeEpsilonWith c = .ok r) ↔ ∀ name, ¬ t.Dangles name)) ∧
    (∀ index size, t.removeEpsilonWith c ≠ .error (.noSuchEntry index size)) ∧
    ∀ r, t.removeEpsilonWith c = .ok r → r.starts = t.starts ∧
      (∀ i, i ∈ r.finals ↔ ∃ s, c.of i = .ok s ∧ ∃ j ∈ s, j ∈ t.finals) ∧
      (t.closures = .ok c →
        ∀ i, i ∈ r.finals ↔ i < t.size ∧ ∃ j ∈ t.finals, t.SilentlyReaches i j) := by
  have hb := bounded_of_closures hc
  refine ⟨fun i hi => hb.of_lt hi, removeEpsilonWith_eq_indexOutOfRange_iff hb, fun hsize => ?_,
    removeEpsilonWith_ne_noSuchEntry hb, fun r hr => ⟨starts_of_removeEpsilonWith hr, ?_, ?_⟩⟩
  · exact ⟨fun e => dangles_of_removeEpsilonWith hb hsize, exists_removeEpsilonWith_iff hb hsize⟩
  · exact fun i => mem_finals_of_removeEpsilonWith hr
  · exact fun hown i => mem_finals_iff_of_closures hown hr

/-- A state that reaches another one without reading. -/
def linked : Table :=
  (ofStates ["p", "q"] ["ε"] "ε").addTarget "p" "ε" "q"

def linkedClosures : Closures :=
  ⟨[.ofList [0, 1], .singleton 1]⟩

/-- Two states of one name, marked past the last of them, and an entry that names another. -/
def stray : Table :=
  (((ofStates ["s", "s"] ["a"] "ε").addTarget "s" "a" "r").markStart 7).markFinal 9

theorem dangles_stray {name : String} : stray.Dangles name ↔ name = "r" := by
  constructor
  · rintro ⟨state, hstate, symbol, hsymbol, hname, -⟩
    have hstate : state ∈ ["s", "s"] := hstate
    have hsymbol : symbol ∈ ["a"] := hsymbol
    obtain rfl : state = "s" := by simpa using hstate
    obtain rfl : symbol = "a" := List.mem_singleton.1 hsymbol
    have hname : name ∈ ["r"] := hname
    exact List.mem_singleton.1 hname
  · rintro rfl
    exact ⟨"s", by decide, "a", by decide, by decide, by decide⟩

theorem removeEpsilonWith_exact_stray : linked.closures = .ok linkedClosures ∧
    stray.removeEpsilonWith linkedClosures = .error (.unknownState "r") := by
  have hc : linked.closures = .ok linkedClosures := by rfl
  obtain ⟨-, -, hsame, -⟩ := removeEpsilonWith_exact (t := stray) hc
  obtain ⟨hfails, hok⟩ := hsame rfl
  refine ⟨hc, ?_⟩
  cases h : stray.removeEpsilonWith linkedClosures with
  | error e =>
    obtain ⟨name, hname, rfl⟩ := hfails e h
    rw [dangles_stray.1 hname]
  | ok r => exact absurd (dangles_stray.2 rfl) (hok.1 ⟨r, h⟩ "r")

end Table

end Acceptor
