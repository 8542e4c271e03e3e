/-
The sets of states that sequences of symbols lead to. The subset construction has a state for each
of them that is not empty, and no others: every set that it finds is led to by some symbols
(`Explores.reachable`), and symbols lead from its start to the state that stands for what they
lead to (`Determinized.endOf?_cases`). Main statement: `determinize_reachable`.
-/
import Acceptor.Proofs.Table.Subsets

namespace Acceptor.Table

variable {t r : Table} {current s next : IndexSet} {found : List IndexSet} {e : Exploration}
variable {i j : Nat} {word : List String} {a : String}

/-! ## Following symbols -/

/-- A sequence of symbols leads from one state to another. -/
def Trail (t : Table) : Nat → List String → Nat → Prop
  | i, [], j => i = j
  | i, a :: word, j => ∃ k, t.Follows i a k ∧ t.Trail k word j

/-- A sequence of symbols leads to a state from one where a path may start. -/
def ReachedBy (t : Table) (word : List String) (j : Nat) : Prop :=
  ∃ i, t.StartsAt i ∧ t.Trail i word j

/-- Where a sequence of symbols ends that is followed from a state, always to the first of the
states stored. Where none is stored it gets stuck. -/
def endOf? (t : Table) : String → List String → Option String
  | state, [] => some state
  | state, a :: word => (t.targets state a).head?.bind (t.endOf? · word)

@[simp] theorem trail_nil : t.Trail i [] j ↔ i = j := Iff.rfl

@[simp] theorem trail_cons : t.Trail i (a :: word) j ↔ ∃ k, t.Follows i a k ∧ t.Trail k word j :=
  Iff.rfl

theorem trail_concat : t.Trail i (word ++ [a]) j ↔ ∃ k, t.Trail i word k ∧ t.Follows k a j := by
  induction word generalizing i with
  | nil => simp
  | cons b word ih =>
    simp only [List.cons_append, trail_cons, ih]
    grind

theorem Trail.lt (h : t.Trail i word j) (hi : i < t.size) : j < t.size := by
  induction word generalizing i with
  | nil => exact trail_nil.1 h ▸ hi
  | cons a word ih =>
    obtain ⟨k, hik, hkj⟩ := h
    exact ih hkj hik.lt.2

theorem reachedBy_concat :
    t.ReachedBy (word ++ [a]) j ↔ ∃ k, t.ReachedBy word k ∧ t.Follows k a j := by
  simp only [ReachedBy, trail_concat]
  grind

/-! ## Sets that are led to -/

/-- A set with members, which are what some symbols of a table lead to. -/
structure Reachable (t : Table) (s : IndexSet) : Prop where
  nonempty : s.isEmpty = false
  exists_word : ∃ word, (∀ a ∈ word, a ∈ t.symbols) ∧ ∀ j, j ∈ s ↔ t.ReachedBy word j

theorem reachable_initial (t : Table) : t.Reachable t.initial where
  nonempty := by
    unfold initial
    split
    · rfl
    · rename_i h
      exact Bool.eq_false_iff.2 h
  exists_word := by
    refine ⟨[], List.forall_mem_nil _, fun j => ?_⟩
    simp [ReachedBy, mem_initial_iff]

theorem Reachable.lt (h : t.Reachable s) (hv : t.Valid) (hne : t.states ≠ []) :
    ∀ j ∈ s, j < t.size := by
  intro j hj
  obtain ⟨word, -, hmem⟩ := h.exists_word
  obtain ⟨i, hi, htrail⟩ := (hmem j).1 hj
  exact htrail.lt (hv.initial_lt hne i (mem_initial_iff.2 hi))

theorem Reachable.successor (h : t.Reachable s) (ha : a ∈ t.symbols)
    (hnext : t.Successor s a next) (hne : next.isEmpty = false) : t.Reachable next := by
  obtain ⟨word, hword, hmem⟩ := h.exists_word
  refine ⟨hne, word ++ [a], ?_, fun j => ?_⟩
  · simpa [or_imp, forall_and] using ⟨hword, ha⟩
  · rw [hnext, reachedBy_concat]
    simp only [hmem]

/-- A set that is found by following a symbol was found before or follows. -/
theorem of_mem_exploreSymbol {acc acc' : List IndexSet × Dict (List String)}
    (h : t.exploreSymbol current acc a = .ok acc') (hs : s ∈ acc'.1) :
    s ∈ acc.1 ∨ s.isEmpty = false ∧ t.follow current a = .ok s := by
  obtain ⟨next, hok, h⟩ := bind_eq_ok_iff.1 h
  split at h
  · cases h
    exact .inl hs
  · rename_i hne
    split at h
    · cases h
      exact .inl hs
    · cases h
      rcases List.mem_append.1 hs with hs | hs
      · exact .inl hs
      · rw [List.mem_singleton.1 hs]
        exact .inr ⟨Bool.eq_false_iff.2 hne, hok⟩

/-- All sets that are found are led to. -/
theorem Explores.reachable {k : Nat} {e' : Exploration} (h : t.Explores k e e') (hv : t.Valid)
    (hne : t.states ≠ []) (he : ∀ s ∈ e.found, t.Reachable s) : ∀ s ∈ e'.found, t.Reachable s := by
  induction h with
  | done => exact he
  | next hk hfold _ ih =>
    have hcurrent := he _ (List.mem_of_getElem? hk)
    refine ih (foldlM_keeps (P := fun acc => ∀ s ∈ acc.1, t.Reachable s) hfold ?_ he)
    intro a ha acc acc' hacc hok s hs
    rcases of_mem_exploreSymbol hok hs with hs | ⟨hsome, hfollow⟩
    · exact hacc s hs
    · -- a set that is new is led to by one symbol more than the current one
      obtain ⟨next, hnext, hsucc⟩ := hv.exists_follow (hcurrent.lt hv hne) a
      cases hfollow.symm.trans hnext
      exact hcurrent.successor ha hsucc hsome

/-- The subset construction finds only sets that are led to. -/
theorem Valid.exists_determinize_reachable (hv : t.Valid) (hne : t.states ≠ [])
    (hmarker : ∀ state, t.targets state t.marker = []) : ∃ d found, t.determinize = .ok d ∧
      Determinized t d.table found ∧ ∀ s ∈ found, t.Reachable s := by
  obtain ⟨e, members, hexplore, he, -, hok⟩ := hv.exists_exploration hne hmarker
  refine ⟨_, e.found, hok, he.determinized, (explores_of_explore hexplore).reachable hv hne ?_⟩
  exact List.forall_mem_singleton.2 (reachable_initial t)

/-! ## Where symbols end -/

theorem Successor.trail_iff (h : t.Successor s a next) :
    (∃ i ∈ s, t.Trail i (a :: word) j) ↔ ∃ i ∈ next, t.Trail i word j := by
  constructor
  · rintro ⟨i, hi, k, hik, hkj⟩
    exact ⟨k, (h k).2 ⟨i, hi, hik⟩, hkj⟩
  · rintro ⟨k, hk, hkj⟩
    obtain ⟨i, hi, hik⟩ := (h k).1 hk
    exact ⟨i, hi, k, hik, hkj⟩

/-- In the deterministic table symbols lead from the state of a set to that of what they lead to,
and get stuck where that is nothing. -/
theorem Determinized.endOf?_cases (h : Determinized t r found) (hword : ∀ a ∈ word, a ∈ t.symbols)
    {k : Nat} (hk : found[k]? = some s) :
    (∃ m s', found[m]? = some s' ∧ r.endOf? (subsetName k) word = some (subsetName m) ∧
      ∀ j, j ∈ s' ↔ ∃ i ∈ s, t.Trail i word j) ∨
    (r.endOf? (subsetName k) word = none ∧ ∀ i ∈ s, ∀ j, ¬ t.Trail i word j) := by
  induction word generalizing k s with
  | nil => exact .inl ⟨k, s, hk, rfl, by simp⟩
  | cons a word ih =>
    obtain ⟨ha, hword⟩ := List.forall_mem_cons.1 hword
    obtain ⟨next, hnext, hnamed⟩ := h.targets k s hk a ha
    -- the entry of the symbol holds no state, or that of the next set
    rcases hnamed with ⟨hempty, htargets⟩ | ⟨-, m, hm, htargets⟩
    · refine .inr ⟨by rw [endOf?, htargets]; rfl, fun i hi j hij => ?_⟩
      obtain ⟨i', hi', -⟩ := hnext.trail_iff.1 ⟨i, hi, hij⟩
      exact OrderedSet.isEmpty_eq_true_iff.1 hempty i' hi'
    · have hstep : r.endOf? (subsetName k) (a :: word) = r.endOf? (subsetName m) word := by
        rw [endOf?, htargets]
        rfl
      rw [hstep]
      rcases ih hword hm with ⟨m', s', hs', hend, hmem⟩ | ⟨hend, hnone⟩
      · exact .inl ⟨m', s', hs', hend, fun j => (hmem j).trans hnext.trail_iff.symm⟩
      · refine .inr ⟨hend, fun i hi j hij => ?_⟩
        obtain ⟨i', hi', hij'⟩ := hnext.trail_iff.1 ⟨i, hi, hij⟩
        exact hnone i' hi' j hij'

/-- From the start symbols lead to the state of what they lead to in the table. -/
theorem Determinized.endOf?_start (h : Determinized t r found)
    (hword : ∀ a ∈ word, a ∈ t.symbols) :
    (∃ m s, found[m]? = some s ∧ r.endOf? (subsetName 0) word = some (subsetName m) ∧
      ∀ j, j ∈ s ↔ t.ReachedBy word j) ∨
    (r.endOf? (subsetName 0) word = none ∧ ∀ j, ¬ t.ReachedBy word j) := by
  have hcases := h.endOf?_cases hword h.initial
  simp only [mem_initial_iff] at hcases
  rcases hcases with h | ⟨hend, hnone⟩
  · exact .inl h
  · exact .inr ⟨hend, fun j ⟨i, hi, hij⟩ => hnone i hi j hij⟩

section Start

variable (h : Determinized t r found) (hreach : ∀ s ∈ found, t.Reachable s)
  (hword : ∀ a ∈ word, a ∈ t.symbols)

include h hreach hword

theorem Determinized.endOf?_start_eq_some_iff {p : String} :
    r.endOf? (subsetName 0) word = some p ↔
      ∃ m s, found[m]? = some s ∧ p = subsetName m ∧ ∀ j, j ∈ s ↔ t.ReachedBy word j := by
  rcases h.endOf?_start hword with ⟨m, s, hs, hend, hmem⟩ | ⟨hend, hnone⟩
  · rw [hend]
    constructor
    · intro hp
      cases hp
      exact ⟨m, s, hs, rfl, hmem⟩
    · rintro ⟨k, s', hs', rfl, hmem'⟩
      obtain rfl : s = s' := OrderedSet.ext fun j => (hmem j).trans (hmem' j).symm
      rw [h.sets.index_unique hs hs']
  · rw [hend]
    refine iff_of_false (by simp) ?_
    rintro ⟨k, s, hs, -, hmem⟩
    obtain ⟨j, hj⟩ := OrderedSet.isEmpty_eq_false_iff.1
      (hreach s (List.mem_of_getElem? hs)).nonempty
    exact hnone j ((hmem j).1 hj)

theorem Determinized.endOf?_start_eq_none_iff :
    r.endOf? (subsetName 0) word = none ↔ ∀ j, ¬ t.ReachedBy word j := by
  rcases h.endOf?_start hword with ⟨m, s, hs, hend, hmem⟩ | ⟨hend, hnone⟩
  · obtain ⟨j, hj⟩ := OrderedSet.isEmpty_eq_false_iff.1
      (hreach s (List.mem_of_getElem? hs)).nonempty
    rw [hend]
    exact iff_of_false (by simp) fun hnone => hnone j ((hmem j).1 hj)
  · exact iff_of_true hend hnone

end Start

/-! ## The subsets by name -/

/-- Entries taken in increasing order of their positions are in the order of the list. -/
theorem sublist_of_forall₂ {α : Type} {xs ys : List α} {is : List Nat}
    (h : List.Forall₂ (fun i y => xs[i]? = some y) is ys) (his : is.Pairwise (· < ·)) :
    ys.Sublist xs := by
  -- entries from some position on are among what is left there
  suffices hdrop : ∀ n, (∀ i ∈ is, n ≤ i) → ys.Sublist (xs.drop n) from
    hdrop 0 fun i _ => Nat.zero_le i
  induction h with
  | nil => exact fun n _ => List.nil_sublist _
  | @cons i y is ys hy _ ih =>
    intro n hn
    obtain ⟨hi, his⟩ := List.pairwise_cons.1 his
    obtain ⟨hlt, rfl⟩ := List.getElem?_eq_some_iff.1 hy
    have hrest := (ih his (i + 1) hi).cons_cons xs[i]
    rw [← List.drop_eq_getElem_cons hlt] at hrest
    exact hrest.trans (List.drop_sublist_drop_left xs (hn i List.mem_cons_self))

/-- The names of some states stand in the order of the table. -/
theorem sublist_of_namesAt {names : List String} (h : t.namesAt s = .ok names) :
    names.Sublist t.states := by
  refine sublist_of_forall₂ ?_ s.increasing
  exact (mapM_eq_ok_iff.1 h).imp fun _ _ => entry_eq_ok_iff.1

/-- Only one set has its names. -/
theorem Valid.mem_iff_of_namesAt (hv : t.Valid) {names : List String}
    (h : t.namesAt s = .ok names) : j ∈ s ↔ ∃ q ∈ names, t.states[j]? = some q := by
  constructor
  · intro hj
    obtain ⟨q, hq, hjq⟩ := forall₂_mem_left (mapM_eq_ok_iff.1 h) hj
    exact ⟨q, hq, entry_eq_ok_iff.1 hjq⟩
  · rintro ⟨q, hq, hjq⟩
    obtain ⟨j', hj', hjq'⟩ := (mem_of_mapM_entry h).1 hq
    rwa [getElem?_states_inj hv.nodup hjq hjq']

section Subsets

variable {members : List (String × List String)} {p : String} {names : List String}

theorem Members.keys_eq (h : t.Members found members) :
    members.map Prod.fst = (namedSets found).keys := by
  have hall := mapM_eq_ok_iff.1 h
  refine List.forall₂_eq_eq_eq ▸ List.forall₂_map_left_iff.2 (List.forall₂_map_right_iff.2 ?_)
  refine hall.flip.imp fun y x hxy => ?_
  obtain ⟨names, -, rfl⟩ := map_eq_ok_iff.1 hxy
  rfl

theorem Members.get?_iff (h : t.Members found members) :
    (Dict.ofList members).get? p = some names ↔
      ∃ k s, p = subsetName k ∧ found[k]? = some s ∧ t.namesAt s = .ok names := by
  have hnodup : (members.map Prod.fst).Nodup := h.keys_eq ▸ (namedSets found).nodup_keys
  have hall := mapM_eq_ok_iff.1 h
  rw [Dict.get?_ofList hnodup]
  constructor
  · intro hm
    obtain ⟨⟨q, s⟩, hx, hxy⟩ := forall₂_mem_right hall hm
    obtain ⟨names', hnames, he⟩ := map_eq_ok_iff.1 hxy
    cases he
    obtain ⟨k, hk, hs⟩ := get?_namedSets.1 (Dict.mem_entries_iff.1 hx)
    exact ⟨k, s, hk, hs, hnames⟩
  · rintro ⟨k, s, rfl, hs, hnames⟩
    have hx := Dict.mem_entries_iff.2 (get?_namedSets.2 ⟨k, rfl, hs⟩)
    obtain ⟨y, hy, hxy⟩ := forall₂_mem_left hall hx
    obtain ⟨names', hnames', rfl⟩ := map_eq_ok_iff.1 hxy
    cases hnames.symm.trans hnames'
    exact hy

theorem Members.keys_ofList (h : t.Members found members) :
    (Dict.ofList members).keys = (namedSets found).keys := by
  have hnodup : (members.map Prod.fst).Nodup := h.keys_eq ▸ (namedSets found).nodup_keys
  refine OrderedSet.eq_of_pairwise (Dict.ofList members).increasing (namedSets found).increasing
    fun p => ?_
  rw [Dict.mem_keys_iff, ← h.keys_eq]
  simp only [Dict.get?_ofList hnodup, List.mem_map, Prod.exists, exists_and_right, exists_eq_right]

end Subsets

/-! ## Rows -/

theorem NamedIn.length_le {names : List String} (h : NamedIn found s names) :
    names.length ≤ 1 := by
  rcases h with ⟨-, rfl⟩ | ⟨-, k, -, rfl⟩
  · exact Nat.zero_le 1
  · exact Nat.le_refl 1

theorem Exploring.isDeterministic (h : t.Exploring e.found.length e) :
    (t.deterministic e).isDeterministic = true := by
  have hmarker := h.valid.hasEpsilonMoves_eq_false_iff.2 h.determinized.targets_marker
  rw [Table.isDeterministic, hmarker, Bool.not_false, Bool.true_and]
  simp only [Dict.values, List.all_eq_true, List.forall_mem_map, decide_eq_true_eq]
  intro row hrow column hcolumn
  obtain ⟨k, s, -, -, hrowOf⟩ := h.rowOf hrow
  obtain ⟨next, hnamed⟩ := hrowOf.namedIn hcolumn
  exact hnamed.length_le

/-- An entry is stored for each state and each symbol. -/
theorem Exploring.exists_entry (h : t.Exploring e.found.length e) {p : String}
    (hp : p ∈ (t.deterministic e).states) (ha : a ∈ t.symbols) :
    ∃ row targets, (t.deterministic e).moves.get? p = some row ∧ row.get? a = some targets ∧
      targets.length ≤ 1 := by
  obtain ⟨k, hk, rfl⟩ := mem_states_deterministic.1 hp
  obtain ⟨row, hrow, hrowOf⟩ := h.rows k _ hk (List.getElem?_eq_getElem hk)
  obtain ⟨next, targets, -, hnamed, htargets⟩ := hrowOf.rowFor a ha
  exact ⟨row, targets, hrow, htargets, hnamed.length_le⟩

/-! ## How many there are -/

theorem Determinized.size_eq (h : Determinized t r found) : r.size = found.length := by
  have hnodup : ((List.range found.length).map subsetName).Nodup :=
    List.nodup_range.map fun _ _ => subsetName_inj
  have hperm : r.states.Perm ((List.range found.length).map subsetName) := by
    refine (List.perm_ext_iff_of_nodup h.valid.nodup hnodup).2 fun p => ?_
    rw [h.mem_states_iff, List.mem_map]
    simp only [List.mem_range, eq_comm]
  simpa [size] using hperm.length_eq

/-- Where no set is empty there are fewer sets than there are subsets of the states. -/
theorem Found.length_lt (h : t.Found found) (hne : ∀ s ∈ found, s.isEmpty = false) :
    found.length < 2 ^ t.size := by
  -- the empty set could be found as well
  have hempty : OrderedSet.empty ∉ found := fun hm => by cases hne _ hm
  have hcons : t.Found (OrderedSet.empty :: found) := by
    refine ⟨List.nodup_cons.2 ⟨hempty, h.nodup⟩, List.forall_mem_cons.2 ⟨fun i hi => ?_, h.lt⟩⟩
    exact absurd hi (OrderedSet.not_mem_empty i)
  exact hcons.length_le

/-! ## The states are the subsets that are led to -/

/-- A deterministic table whose states are the sets of states of another that sequences of symbols
lead to, each of them once. -/
structure ReachableSubsets (t : Table) (d : Dfa) : Prop where
  valid : d.table.validate = .ok ()
  deterministic : d.table.isDeterministic = true
  sorted : d.table.states.Pairwise (· < ·)
  start : ∃ x, d.table.starts = .singleton x ∧ d.table.states[x]? = some "A"
  /-- There is an entry for each state and each symbol. -/
  entry : ∀ p ∈ d.table.states, ∀ a ∈ t.symbols, ∃ row targets,
    d.table.moves.get? p = some row ∧ row.get? a = some targets ∧ targets.length ≤ 1
  keys : d.subsets.keys = d.table.states
  /-- Symbols end in the state whose subset lists what they lead to, in the order of the states. -/
  ends : ∀ word p, (∀ a ∈ word, a ∈ t.symbols) → d.table.endOf? "A" word = some p →
    ∃ names, d.subsets.get? p = some names ∧ names.Sublist t.states ∧
      ∀ q, q ∈ names ↔ ∃ j, t.ReachedBy word j ∧ t.states[j]? = some q
  /-- Symbols get stuck where they lead to nothing. -/
  stuck : ∀ word, (∀ a ∈ word, a ∈ t.symbols) →
    (d.table.endOf? "A" word = none ↔ ∀ j, ¬ t.ReachedBy word j)
  reached : ∀ p ∈ d.table.states, ∃ word, (∀ a ∈ word, a ∈ t.symbols) ∧
    d.table.endOf? "A" word = some p
  distinct : ∀ p q names, d.subsets.get? p = some names → d.subsets.get? q = some names → p = q
  final_iff : ∀ x p names, d.table.states[x]? = some p → d.subsets.get? p = some names →
    (x ∈ d.table.finals ↔ ∃ q ∈ names, ∃ i ∈ t.finals, t.states[i]? = some q)
  size_le : d.table.size ≤ 2 ^ t.size - 1

theorem subsetName_zero : subsetName 0 = "A" := by
  rw [subsetName, subsetLetters]
  rfl

/-- What is found, if all of it is led to, makes such a table. -/
theorem Exploring.reachableSubsets {members : List (String × List String)} (hv : t.Valid)
    (h : t.Exploring e.found.length e) (hreach : ∀ s ∈ e.found, t.Reachable s)
    (hmembers : t.Members e.found members) :
    ReachableSubsets t ⟨t.deterministic e, .ofList members⟩ where
  valid := validate_eq_ok_iff.2 h.valid
  deterministic := h.isDeterministic
  sorted := (namedSets e.found).increasing
  start := by
    obtain ⟨x, hx, -⟩ := h.determinized.exists_start
    refine ⟨x, hx, ?_⟩
    rw [← subsetName_zero, ← h.determinized.mem_starts_iff, hx, OrderedSet.mem_singleton]
  entry _ hp _ ha := h.exists_entry hp ha
  keys := hmembers.keys_ofList
  ends word p hword hend := by
    rw [← subsetName_zero] at hend
    obtain ⟨m, s, hs, rfl, hmem⟩ :=
      (h.determinized.endOf?_start_eq_some_iff hreach hword).1 hend
    obtain ⟨names, hnames, hmem'⟩ := exists_mapM_entry (h.sets.lt s (List.mem_of_getElem? hs))
    refine ⟨names, hmembers.get?_iff.2 ⟨m, s, rfl, hs, hnames⟩, sublist_of_namesAt hnames,
      fun q => ?_⟩
    simp only [hmem', hmem]
  stuck word hword := by
    rw [← subsetName_zero]
    exact h.determinized.endOf?_start_eq_none_iff hreach hword
  reached p hp := by
    obtain ⟨k, hk, rfl⟩ := mem_states_deterministic.1 hp
    have hget : e.found[k]? = some e.found[k] := List.getElem?_eq_getElem hk
    obtain ⟨word, hword, hmem⟩ := (hreach _ (List.mem_of_getElem? hget)).exists_word
    refine ⟨word, hword, ?_⟩
    rw [← subsetName_zero]
    exact (h.determinized.endOf?_start_eq_some_iff hreach hword).2 ⟨k, _, hget, rfl, hmem⟩
  distinct p q names hp hq := by
    obtain ⟨k, s, rfl, hs, hnames⟩ := hmembers.get?_iff.1 hp
    obtain ⟨m, s', rfl, hs', hnames'⟩ := hmembers.get?_iff.1 hq
    obtain rfl : s = s' := OrderedSet.ext fun j =>
      (hv.mem_iff_of_namesAt hnames).trans (hv.mem_iff_of_namesAt hnames').symm
    rw [h.sets.index_unique hs hs']
  final_iff x p names hx hp := by
    obtain ⟨k, s, rfl, hs, hnames⟩ := hmembers.get?_iff.1 hp
    change x ∈ (t.deterministic e).finals ↔ _
    rw [h.determinized.mem_finals_iff_of_standsFor ⟨k, hx, hs⟩]
    simp only [hv.mem_iff_of_namesAt hnames]
    grind
  size_le := by
    have hlt := h.sets.length_lt fun s hs => (hreach s hs).nonempty
    have hsize : (t.deterministic e).size = e.found.length := h.determinized.size_eq
    change (t.deterministic e).size ≤ _
    omega

/-- The states that the subset construction makes of a table that makes sense, with states and
without moves without reading, are the subsets that sequences of symbols lead to, each once. -/
theorem determinize_reachable {t : Table} (hv : t.validate = .ok ()) (hne : t.states ≠ [])
    (hm : t.hasEpsilonMoves = false) :
    ∃ d, t.determinize = .ok d ∧ ReachableSubsets t d := by
  have hvalid := validate_eq_ok_iff.1 hv
  obtain ⟨e, members, hok, he, hmembers, hd⟩ :=
    hvalid.exists_exploration hne (hvalid.hasEpsilonMoves_eq_false_iff.1 hm)
  have hreach : ∀ s ∈ e.found, t.Reachable s :=
    (explores_of_explore hok).reachable hvalid hne
      (List.forall_mem_singleton.2 t.reachable_initial)
  exact ⟨_, hd, he.reachableSubsets hvalid hreach hmembers⟩

theorem determinize_reachable_unruly :
    ∃ d, unruly.determinize = .ok d ∧ ReachableSubsets unruly d := by
  have hvalid : unruly.Valid := by decide +kernel
  exact determinize_reachable (validate_eq_ok_iff.2 hvalid) (by decide) (by decide +kernel)

end Acceptor.Table
