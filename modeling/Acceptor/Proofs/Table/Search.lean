/-
The search for what a state reaches without reading, in any table: names may be shared by states
or missing. Each step of it takes one off those that remain (`SearchesIn.searching`), so it ends
after no more steps than there are states (`exists_search`). Main statements: it finds exactly what
the state reaches through the entries of the marker, unless it comes upon one that names no state
(`findsUnless_closureAt`), and so for the closures of all states (`closures_exact`).
-/
import Acceptor.Proofs.Table.Moves
import Acceptor.Table.Closure
import Mathlib.Data.List.Perm.Subperm
import Mathlib.Logic.Relation

namespace Acceptor

namespace IndexSet

variable {s r : IndexSet} {n : Nat}

theorem nodup (s : IndexSet) : s.toList.Nodup :=
  s.increasing.imp Nat.ne_of_lt

/-- A set of numbers below a bound has no more members than that. -/
theorem size_le (h : ∀ i ∈ s, i < n) : s.size ≤ n := by
  have hsub : s.toList ⊆ List.range n := fun i hi => List.mem_range.2 (h i hi)
  simpa [OrderedSet.size] using (List.subperm_of_subset s.nodup hsub).length_le

/-- A union has the members of one set and the other members of the other. -/
theorem size_union : (s.union r).size = s.size + (r.toList.filter (· ∉ s)).length := by
  have hperm : (s.union r).toList.Perm (s.toList ++ r.toList.filter (· ∉ s)) := by
    refine (List.perm_ext_iff_of_nodup (nodup _) ?_).2 fun i => ?_
    · refine List.nodup_append.2 ⟨s.nodup, r.nodup.filter _, ?_⟩
      rintro i hi _ hj rfl
      exact of_decide_eq_true (List.mem_filter.1 hj).2 hi
    · rw [← OrderedSet.mem_iff, OrderedSet.mem_union, List.mem_append, List.mem_filter,
        decide_eq_true_eq, ← OrderedSet.mem_iff, ← OrderedSet.mem_iff]
      by_cases hi : i ∈ s <;> simp [hi]
  rw [OrderedSet.size, hperm.length_eq, List.length_append]
  rfl

end IndexSet

namespace Table

variable {t : Table} {c : Closures} {i j k current fuel : Nat} {seen next last : IndexSet}
variable {stack rest : List Nat} {answer : Except Error IndexSet}

/-- A state is reached from another through the entries of the marker, by name. -/
def SilentlyReaches (t : Table) : Nat → Nat → Prop :=
  Relation.ReflTransGen fun i j => t.Enters i t.marker j

/-- A state reaches one whose entry of the marker names no state. -/
def MeetsUnknown (t : Table) (i : Nat) : Prop :=
  ∃ j, t.SilentlyReaches i j ∧ t.Misnames j t.marker

theorem SilentlyReaches.lt (h : t.SilentlyReaches i j) (hi : i < t.size) : j < t.size := by
  induction h with
  | refl => exact hi
  | tail _ hm _ => exact hm.lt.2

/-! ## The search -/

/-- What holds during a search from `i`: what is seen is reached, and what is seen but not on the
stack has been followed, all its entries naming states that are seen. -/
structure Searching (t : Table) (i : Nat) (seen : IndexSet) (stack : List Nat) : Prop where
  start : i ∈ seen
  lt : ∀ j ∈ seen, j < t.size
  reached : ∀ j ∈ seen, t.SilentlyReaches i j
  stack_seen : ∀ j ∈ stack, j ∈ seen
  named : ∀ j ∈ seen, j ∉ stack → ¬ t.Misnames j t.marker
  closed : ∀ j ∈ seen, j ∉ stack → ∀ k, t.Enters j t.marker k → k ∈ seen

theorem searching_start (hi : i < t.size) : t.Searching i (.singleton i) [i] := by
  have honly : ∀ j ∈ (OrderedSet.singleton i : IndexSet), j = i :=
    fun j hj => OrderedSet.mem_singleton.1 hj
  have hstack : ∀ j ∈ (OrderedSet.singleton i : IndexSet), j ∈ [i] :=
    fun j hj => List.mem_singleton.2 (honly j hj)
  refine ⟨OrderedSet.mem_singleton.2 rfl, fun j hj => ?_, fun j hj => ?_, fun j hj => ?_,
    fun j hj hout => absurd (hstack j hj) hout, fun j hj hout => absurd (hstack j hj) hout⟩
  · rwa [honly j hj]
  · rw [honly j hj]
    exact .refl
  · exact OrderedSet.mem_singleton.2 (List.mem_singleton.1 hj)

/-- Following the entries of one state. -/
theorem Searching.step (h : t.Searching i seen (current :: stack))
    (hnamed : ¬ t.Misnames current t.marker)
    (hnext : ∀ k, k ∈ next ↔ t.Enters current t.marker k) :
    t.Searching i (seen.union next) ((next.toList.filter (· ∉ seen)).reverse ++ stack) := by
  -- what leaves the stack is what was seen off it before, and the state just followed
  have hout : ∀ j ∈ seen.union next, j ∉ (next.toList.filter (· ∉ seen)).reverse ++ stack →
      j = current ∨ j ∈ seen ∧ j ∉ current :: stack := by
    intro j hj hstack
    rw [List.mem_append, List.mem_reverse, List.mem_filter, decide_eq_true_eq, not_or] at hstack
    have hseen : j ∈ seen := by
      by_contra hnot
      rcases OrderedSet.mem_union.1 hj with hj | hj
      · exact hnot hj
      · exact hstack.1 ⟨hj, hnot⟩
    rw [List.mem_cons, not_or]
    by_cases hjc : j = current
    · exact .inl hjc
    · exact .inr ⟨hseen, hjc, hstack.2⟩
  refine ⟨OrderedSet.mem_union.2 (.inl h.start), fun j hj => ?_, fun j hj => ?_, fun j hj => ?_,
    fun j hj hstack => ?_, fun j hj hstack k hk => ?_⟩
  · rcases OrderedSet.mem_union.1 hj with hj | hj
    · exact h.lt j hj
    · exact ((hnext j).1 hj).lt.2
  · rcases OrderedSet.mem_union.1 hj with hj | hj
    · exact h.reached j hj
    · exact (h.reached current (h.stack_seen current List.mem_cons_self)).tail ((hnext j).1 hj)
  · rcases List.mem_append.1 hj with hj | hj
    · exact OrderedSet.mem_union.2 (.inr (List.mem_filter.1 (List.mem_reverse.1 hj)).1)
    · exact OrderedSet.mem_union.2 (.inl (h.stack_seen j (List.mem_cons_of_mem _ hj)))
  · rcases hout j hj hstack with rfl | ⟨hseen, hstack⟩
    · exact hnamed
    · exact h.named j hseen hstack
  · rcases hout j hj hstack with rfl | ⟨hseen, hstack⟩
    · exact OrderedSet.mem_union.2 (.inr ((hnext k).2 hk))
    · exact OrderedSet.mem_union.2 (.inl (h.closed j hseen hstack k hk))

/-- How many steps a search still takes at most: one for each state on the stack and for each that
is not yet seen. -/
def remaining (t : Table) (seen : IndexSet) (stack : List Nat) : Nat :=
  stack.length + (t.size - seen.size)

theorem remaining_start (hi : i < t.size) : t.remaining (.singleton i) [i] = t.size := by
  rw [remaining, List.length_singleton, show (OrderedSet.singleton i : IndexSet).size = 1 from rfl]
  omega

/-- A state comes off the stack, and each one that is put on it is new. -/
theorem Searching.remaining_step (h : t.Searching i seen (current :: stack))
    (hnext : ∀ k ∈ next, k < t.size) :
    t.remaining (seen.union next) ((next.toList.filter (· ∉ seen)).reverse ++ stack) <
      t.remaining seen (current :: stack) := by
  have hlt : ∀ j ∈ seen.union next, j < t.size :=
    fun j hj => (OrderedSet.mem_union.1 hj).elim (h.lt j) (hnext j)
  have hsize := IndexSet.size_le hlt
  rw [IndexSet.size_union] at hsize
  rw [remaining, remaining, IndexSet.size_union, List.length_append, List.length_reverse,
    List.length_cons]
  omega

/-- What the top state leads to is found, unless one of its entries names no state. -/
theorem Searching.findsUnless_top (h : t.Searching i seen (current :: stack)) :
    FindsUnless (t.targetIndices current t.marker) (t.Misnames current t.marker)
      (t.Enters current t.marker) :=
  findsUnless_targetIndices (h.lt current (h.stack_seen current List.mem_cons_self)) t.marker

/-- A step goes on with the search and leaves fewer that remain. -/
theorem Searching.advance (h : t.Searching i seen (current :: stack))
    (hok : t.targetIndices current t.marker = .ok next) :
    t.Searching i (seen.union next) ((next.toList.filter (· ∉ seen)).reverse ++ stack) ∧
      t.remaining (seen.union next) ((next.toList.filter (· ∉ seen)).reverse ++ stack) <
        t.remaining seen (current :: stack) := by
  obtain ⟨hnamed, hnext⟩ := h.findsUnless_top.of_eq_ok hok
  exact ⟨h.step hnamed hnext, h.remaining_step fun k hk => ((hnext k).1 hk).lt.2⟩

/-- When the stack is empty, all that is reached is seen and nothing unknown was met. -/
theorem Searching.done (h : t.Searching i seen []) :
    ¬ t.MeetsUnknown i ∧ ∀ j, j ∈ seen ↔ t.SilentlyReaches i j := by
  have hmem : ∀ j, t.SilentlyReaches i j → j ∈ seen := by
    intro j hj
    induction hj with
    | refl => exact h.start
    | tail _ hm ih => exact h.closed _ ih List.not_mem_nil _ hm
  refine ⟨?_, fun j => ⟨h.reached j, hmem j⟩⟩
  rintro ⟨j, hj, hmissing⟩
  exact h.named j (hmem j hj) List.not_mem_nil hmissing

/-- Some number of steps of a search: each takes the top state off the stack, sees what its entries
of the marker name, and puts what is new of that on the stack. -/
inductive SearchesIn (t : Table) : Nat → IndexSet → List Nat → IndexSet → List Nat → Prop
  | zero {seen : IndexSet} {stack : List Nat} : SearchesIn t 0 seen stack seen stack
  | succ {k current : Nat} {seen next last : IndexSet} {stack rest : List Nat} :
      t.targetIndices current t.marker = .ok next →
      SearchesIn t k (seen.union next) ((next.toList.filter (· ∉ seen)).reverse ++ stack)
        last rest →
      SearchesIn t (k + 1) seen (current :: stack) last rest

/-- No step of a search is left, and what is answered: what is seen, if the stack is empty, or the
fault of a top state with an entry of the marker that names no state. -/
def SearchEnds (t : Table) (seen : IndexSet) (stack : List Nat) (answer : Except Error IndexSet) :
    Prop :=
  stack = [] ∧ answer = .ok seen ∨
    ∃ current rest name, stack = current :: rest ∧
      t.targetIndices current t.marker = .error (.unknownState name) ∧
      answer = .error (.unknownState name)

/-- Each of some steps takes one off those that remain. -/
theorem SearchesIn.searching (hrun : t.SearchesIn k seen stack last rest)
    (h : t.Searching i seen stack) :
    t.Searching i last rest ∧ k + t.remaining last rest ≤ t.remaining seen stack := by
  induction hrun with
  | zero => exact ⟨h, by omega⟩
  | succ hok _ ih =>
    obtain ⟨hstep, hless⟩ := h.advance hok
    obtain ⟨hlast, hle⟩ := ih hstep
    exact ⟨hlast, by omega⟩

/-- A search ends. -/
theorem Searching.exists_end (h : t.Searching i seen stack) : ∃ k last rest answer,
    t.SearchesIn k seen stack last rest ∧ t.SearchEnds last rest answer := by
  -- each step leaves fewer steps that remain
  induction hn : t.remaining seen stack using Nat.strong_induction_on generalizing seen stack with
  | _ n ih =>
    cases stack with
    | nil => exact ⟨0, seen, [], _, .zero, .inl ⟨rfl, rfl⟩⟩
    | cons current stack =>
      rcases h.findsUnless_top with ⟨-, next, hok, -⟩ | ⟨-, name, he⟩
      · obtain ⟨hstep, hless⟩ := h.advance hok
        obtain ⟨k, last, rest, answer, hrun, hend⟩ := ih _ (hn ▸ hless) hstep rfl
        exact ⟨k + 1, last, rest, answer, .succ hok hrun, hend⟩
      · exact ⟨0, seen, _, _, .zero, .inr ⟨current, stack, name, rfl, he, rfl⟩⟩

/-- With a step for each state that is left on the stack at the end, the loop answers what the
search ends with. -/
theorem SearchesIn.reach_eq (hrun : t.SearchesIn k seen stack last rest)
    (hend : t.SearchEnds last rest answer) (hfuel : k + rest.length ≤ fuel) :
    t.reach fuel seen stack = answer := by
  induction hrun generalizing fuel with
  | zero =>
    obtain ⟨rfl, rfl⟩ | ⟨current, rest, name, rfl, he, rfl⟩ := hend
    · rw [reach]
    · rw [List.length_cons] at hfuel
      obtain ⟨fuel, rfl⟩ := Nat.exists_eq_add_of_le' (show 1 ≤ fuel by omega)
      rw [reach, he]
      rfl
  | succ hok _ ih =>
    obtain ⟨fuel, rfl⟩ := Nat.exists_eq_add_of_le' (show 1 ≤ fuel by omega)
    rw [reach, hok]
    exact ih hend (by omega)

/-- The search from a state ends, after no more steps than there are states. -/
theorem exists_search (hi : i < t.size) : ∃ k last rest,
    t.SearchesIn k (.singleton i) [i] last rest ∧ t.SearchEnds last rest (t.closureAt i) ∧
      k + rest.length ≤ t.size := by
  obtain ⟨k, last, rest, answer, hrun, hend⟩ := (searching_start hi).exists_end
  obtain ⟨-, hle⟩ := hrun.searching (searching_start hi)
  rw [remaining_start hi, remaining] at hle
  obtain rfl : t.closureAt i = answer := hrun.reach_eq hend (by omega)
  exact ⟨k, last, rest, hrun, hend, by omega⟩

/-- The closure of a state is what it reaches, unless it meets a name that no state has. -/
theorem findsUnless_closureAt (hi : i < t.size) :
    FindsUnless (t.closureAt i) (t.MeetsUnknown i) (t.SilentlyReaches i) := by
  obtain ⟨k, last, rest, hrun, hend, -⟩ := exists_search hi
  have hlast := (hrun.searching (searching_start hi)).1
  obtain ⟨rfl, hok⟩ | ⟨current, rest, name, rfl, he, herror⟩ := hend
  · obtain ⟨hnamed, hmem⟩ := hlast.done
    exact .inl ⟨hnamed, last, hok, hmem⟩
  · have hreached := hlast.reached current (hlast.stack_seen current List.mem_cons_self)
    rcases hlast.findsUnless_top with ⟨-, next, hok, -⟩ | ⟨hmissing, -⟩
    · cases he.symm.trans hok
    · exact .inr ⟨⟨current, hreached, hmissing⟩, name, herror⟩

/-! ## The closures of all states -/

theorem exists_misnames_iff {symbol : String} : (∃ i, t.Misnames i symbol) ↔
    ∃ state ∈ t.states, ∃ name ∈ t.targets state symbol, name ∉ t.states := by
  constructor
  · rintro ⟨i, p, q, hp, hq, hmissing⟩
    exact ⟨p, List.mem_of_getElem? hp, q, hq, hmissing⟩
  · rintro ⟨p, hp, q, hq, hmissing⟩
    obtain ⟨i, hi⟩ := List.mem_iff_getElem?.1 hp
    exact ⟨i, p, q, hi, hq, hmissing⟩

/-- The closures are found unless an entry of the marker names no state. -/
theorem closures_cases (t : Table) :
    (∀ i, ¬ t.Misnames i t.marker) ∧ (∃ c, t.closures = .ok c ∧ c.size = t.size ∧
      ∀ i < t.size, Finds (c.of i) (t.SilentlyReaches i)) ∨
    (∃ i, t.Misnames i t.marker) ∧ ∃ name, t.closures = .error (.unknownState name) := by
  have hstates : ∀ i ∈ List.range t.size,
      FindsUnless (t.closureAt i) (t.MeetsUnknown i) (t.SilentlyReaches i) :=
    fun i hi => findsUnless_closureAt (List.mem_range.1 hi)
  cases hsets : (List.range t.size).mapM t.closureAt with
  | error e =>
    obtain ⟨i, hi, he⟩ := exists_of_mapM_eq_error hsets
    rcases hstates i hi with ⟨-, s, hs, -⟩ | ⟨⟨j, -, hmissing⟩, name, hname⟩
    · cases hs.symm.trans he
    · cases hname.symm.trans he
      exact .inr ⟨⟨j, hmissing⟩, name, map_eq_error_iff.2 hsets⟩
  | ok sets =>
    have hall := mapM_eq_ok_iff.1 hsets
    refine .inl ⟨fun i hmissing => ?_, ⟨sets⟩, map_eq_ok_iff.2 ⟨sets, hsets, rfl⟩, ?_, ?_⟩
    · have hi := List.mem_range.2 hmissing.lt
      obtain ⟨s, -, hs⟩ := forall₂_mem_left hall hi
      exact ((hstates i hi).of_eq_ok hs).1 ⟨i, .refl, hmissing⟩
    · exact hall.length_eq.symm.trans List.length_range
    · intro i hi
      have hrange : (List.range t.size)[i]? = some i := List.getElem?_range hi
      obtain ⟨s, hs, hok⟩ := forall₂_getElem?_left hall hrange
      obtain ⟨-, hmem⟩ := (hstates i (List.mem_range.2 hi)).of_eq_ok hok
      exact ⟨s, entry_eq_ok_iff.2 hs, hmem⟩

/-- Closures that are found hold what is reached. -/
theorem finds_of_closures (hc : t.closures = .ok c) :
    c.size = t.size ∧ ∀ i < t.size, Finds (c.of i) (t.SilentlyReaches i) := by
  obtain ⟨-, c', hc', h⟩ | ⟨-, name, he⟩ := t.closures_cases
  · cases hc'.symm.trans hc
    exact h
  · cases he.symm.trans hc

/-- The closures are not found exactly if an entry of the marker names no state. -/
theorem closures_eq_error_iff : (∃ name, t.closures = .error (.unknownState name)) ↔
    ∃ state ∈ t.states, ∃ name ∈ t.targets state t.marker, name ∉ t.states := by
  rw [← exists_misnames_iff]
  rcases t.closures_cases with ⟨hnamed, c, hc, -⟩ | ⟨hmissing, herror⟩
  · simp [hc, hnamed]
  · exact iff_of_true herror hmissing

theorem exists_closures (hall : ∀ state ∈ t.states, ∀ name ∈ t.targets state t.marker,
    name ∈ t.states) : ∃ c, t.closures = .ok c ∧ c.size = t.size ∧
      ∀ i < t.size, Finds (c.of i) (t.SilentlyReaches i) := by
  refine t.closures_cases.elim And.right fun ⟨hmissing, _⟩ => ?_
  obtain ⟨state, hstate, name, hname, hnot⟩ := exists_misnames_iff.1 hmissing
  exact absurd (hall state hstate name hname) hnot

/-! ## The closure of a set -/

/-- What any of some states reaches. -/
theorem finds_ofSet (hc : ∀ i < t.size, Finds (c.of i) (t.SilentlyReaches i)) {s : IndexSet}
    (hs : ∀ i ∈ s, i < t.size) : Finds (c.ofSet s) fun j => ∃ i ∈ s, t.SilentlyReaches i j :=
  finds_gather fun i hi => hc i (hs i hi)

/-- What is reached from some states holds them, and nothing more is reached from it. -/
theorem ofSet_ofSet (hc : ∀ i < t.size, Finds (c.of i) (t.SilentlyReaches i)) {s : IndexSet}
    (hs : ∀ i ∈ s, i < t.size) :
    ∃ closed, c.ofSet s = .ok closed ∧ (∀ i ∈ s, i ∈ closed) ∧ c.ofSet closed = .ok closed := by
  obtain ⟨closed, hok, hmem⟩ := finds_ofSet hc hs
  have hlt : ∀ j ∈ closed, j < t.size := by
    intro j hj
    obtain ⟨i, hi, hij⟩ := (hmem j).1 hj
    exact hij.lt (hs i hi)
  refine ⟨closed, hok, fun i hi => (hmem i).2 ⟨i, hi, .refl⟩, ?_⟩
  refine ((finds_ofSet hc hlt).congr fun k => ?_).unique ⟨closed, rfl, fun _ => Iff.rfl⟩
  constructor
  · rintro ⟨j, hj, hjk⟩
    obtain ⟨i, hi, hij⟩ := (hmem j).1 hj
    exact (hmem k).2 ⟨i, hi, hij.trans hjk⟩
  · exact fun hk => ⟨k, hk, .refl⟩

theorem ofSet_union (hc : ∀ i < t.size, Finds (c.of i) (t.SilentlyReaches i)) {r s : IndexSet}
    (hr : ∀ i ∈ r, i < t.size) (hs : ∀ i ∈ s, i < t.size) :
    ∃ closed closed', c.ofSet r = .ok closed ∧ c.ofSet s = .ok closed' ∧
      c.ofSet (r.union s) = .ok (closed.union closed') := by
  obtain ⟨closed, hok, hmem⟩ := finds_ofSet hc hr
  obtain ⟨closed', hok', hmem'⟩ := finds_ofSet hc hs
  have hlt : ∀ i ∈ r.union s, i < t.size :=
    fun i hi => (OrderedSet.mem_union.1 hi).elim (hr i) (hs i)
  refine ⟨closed, closed', hok, hok', ?_⟩
  refine ((finds_ofSet hc hlt).congr fun k => ?_).unique
    ⟨closed.union closed', rfl, fun _ => Iff.rfl⟩
  simp only [OrderedSet.mem_union, hmem, hmem', or_and_right, exists_or]

/-! ## One closure by name -/

/-- The names of what a state reaches are found, unless no state has its name or an unknown name is
met from the first one that has. -/
theorem closureOf_cases (t : Table) (state : String) :
    (∃ i names, t.index? state = some i ∧ ¬ t.MeetsUnknown i ∧ t.closureOf state = .ok names ∧
      ∀ n, n ∈ names ↔ ∃ j, t.SilentlyReaches i j ∧ t.states[j]? = some n) ∨
    (∀ i, t.index? state = some i → t.MeetsUnknown i) ∧
      ∃ name, t.closureOf state = .error (.unknownState name) := by
  unfold closureOf
  cases hstate : t.index? state with
  | none =>
    have he := index_eq_error_iff.2 ⟨index?_eq_none_iff.1 hstate, rfl⟩
    exact .inr ⟨fun i hi => (nomatch hi), state, by rw [he]; rfl⟩
  | some i =>
    have hi : i < t.size := (List.getElem?_eq_some_iff.1 (index?_eq_some_iff.1 hstate).1).1
    have hindex := index_eq_ok_iff.2 hstate
    rcases findsUnless_closureAt hi with ⟨hnamed, s, hs, hmem⟩ | ⟨hmissing, name, he⟩
    · have hlt : ∀ j ∈ s, j < t.states.length := fun j hj => ((hmem j).1 hj).lt hi
      obtain ⟨names, hnames, hmem'⟩ := exists_mapM_entry hlt
      refine .inl ⟨i, .ofList names, rfl, hnamed, ?_, fun n => ?_⟩
      · exact bind_eq_ok_iff.2
          ⟨i, hindex, bind_eq_ok_iff.2 ⟨s, hs, bind_eq_ok_iff.2 ⟨names, hnames, rfl⟩⟩⟩
      · rw [OrderedSet.mem_ofList, hmem']
        simp only [hmem]
    · refine .inr ⟨fun _ hj => Option.some.inj hj ▸ hmissing, name, ?_⟩
      exact bind_eq_error_iff.2 (.inr ⟨i, hindex, bind_eq_error_iff.2 (.inl he)⟩)

theorem closureOf_eq_ok_iff {state : String} {names : OrderedSet String} :
    t.closureOf state = .ok names ↔ ∃ i, t.index? state = some i ∧ ¬ t.MeetsUnknown i ∧
      ∀ n, n ∈ names ↔ ∃ j, t.SilentlyReaches i j ∧ t.states[j]? = some n := by
  rcases t.closureOf_cases state with ⟨i, names', hi, hnamed, hok, hmem⟩ | ⟨hmissing, name, he⟩
  · constructor
    · intro h
      cases hok.symm.trans h
      exact ⟨i, hi, hnamed, hmem⟩
    · rintro ⟨i', hi', -, hmem'⟩
      cases hi.symm.trans hi'
      rw [hok, OrderedSet.ext fun n => (hmem n).trans (hmem' n).symm]
  · constructor
    · intro h
      cases he.symm.trans h
    · rintro ⟨i, hi, hnamed, -⟩
      exact absurd (hmissing i hi) hnamed

theorem closureOf_eq_error_iff {state : String} :
    (∃ name, t.closureOf state = .error (.unknownState name)) ↔
      ∀ i, t.index? state = some i → t.MeetsUnknown i := by
  rcases t.closureOf_cases state with ⟨i, names, hi, hnamed, hok, -⟩ | ⟨hmissing, herror⟩
  · refine iff_of_false ?_ fun h => hnamed (h i hi)
    rintro ⟨name, he⟩
    cases he.symm.trans hok
  · exact iff_of_true herror hmissing

/-- In any table the search from a state ends after no more steps than there are states: its stack
is empty, unless the state on top has an entry of the marker that names no state. So a loop that is
given as many steps or more is not cut off, and the closures are found exactly if each entry of the
marker names a state. What they hold is then what is reached, so the closure of a set holds the set,
is closed, and is the union of the closures of its parts. The names of one closure are found by the
name of its state. -/
theorem closures_exact (t : Table) :
    (∀ i < t.size, ∃ k ≤ t.size, ∃ last rest, t.SearchesIn k (.singleton i) [i] last rest ∧
      t.SearchEnds last rest (t.closureAt i)) ∧
    (∀ i < t.size, ∀ fuel ≥ t.size, t.reach fuel (.singleton i) [i] = t.closureAt i) ∧
    ((∃ name, t.closures = .error (.unknownState name)) ↔
      ∃ state ∈ t.states, ∃ name ∈ t.targets state t.marker, name ∉ t.states) ∧
    ((∀ state ∈ t.states, ∀ name ∈ t.targets state t.marker, name ∈ t.states) →
      ∃ c, t.closures = .ok c ∧ c.size = t.size ∧
        (∀ i < t.size, Finds (c.of i) (t.SilentlyReaches i)) ∧
        (∀ s : IndexSet, (∀ i ∈ s, i < t.size) →
          ∃ closed, c.ofSet s = .ok closed ∧ (∀ i ∈ s, i ∈ closed) ∧ c.ofSet closed = .ok closed) ∧
        (∀ r s : IndexSet, (∀ i ∈ r, i < t.size) → (∀ i ∈ s, i < t.size) →
          ∃ closed closed', c.ofSet r = .ok closed ∧ c.ofSet s = .ok closed' ∧
            c.ofSet (r.union s) = .ok (closed.union closed'))) ∧
    (∀ state names, t.closureOf state = .ok names ↔
      ∃ i, t.index? state = some i ∧ ¬ t.MeetsUnknown i ∧
        ∀ n, n ∈ names ↔ ∃ j, t.SilentlyReaches i j ∧ t.states[j]? = some n) ∧
    (∀ state, (∃ name, t.closureOf state = .error (.unknownState name)) ↔
      ∀ i, t.index? state = some i → t.MeetsUnknown i) := by
  refine ⟨fun i hi => ?_, fun i hi => ?_, closures_eq_error_iff, fun hall => ?_,
    fun state names => closureOf_eq_ok_iff, fun state => closureOf_eq_error_iff⟩
  · obtain ⟨k, last, rest, hrun, hend, hle⟩ := exists_search hi
    exact ⟨k, by omega, last, rest, hrun, hend⟩
  · obtain ⟨k, last, rest, hrun, hend, hle⟩ := exists_search hi
    exact fun fuel hfuel => hrun.reach_eq hend (hle.trans hfuel)
  · obtain ⟨c, hc, hsize, hof⟩ := exists_closures hall
    exact ⟨c, hc, hsize, hof, fun s hs => ofSet_ofSet hof hs,
      fun r s hr hs => ofSet_union hof hr hs⟩

end Table

end Acceptor
