/-
The subset construction. Main statements: it succeeds for a valid table with states and without
moves without reading (`Valid.exists_determinize`), each state that it makes leads to final states
by the words by which the states that it stands for do (`Determinized.leads_iff`), so the words of
the table stay the same (`Determinized.language_eq`) and so do its answers, faults included
(`determinize_agrees`).
-/
import Acceptor.Proofs.Names
import Acceptor.Proofs.Table.Acceptance
import Acceptor.Table.Subsets
import Mathlib.Data.Finset.Powerset

namespace Acceptor.Table

variable {t r : Table} {current s next : IndexSet} {found found' : List IndexSet} {symbol : String}

/-! ## Following one symbol -/

/-- The set of what follows any member of a set in a column. -/
def Successor (t : Table) (s : IndexSet) (symbol : String) (next : IndexSet) : Prop :=
  ∀ j, j ∈ next ↔ ∃ i ∈ s, t.Follows i symbol j

theorem Successor.unique {other : IndexSet} (h : t.Successor s symbol next)
    (h' : t.Successor s symbol other) : next = other :=
  OrderedSet.ext fun j => (h j).trans (h' j).symm

theorem Valid.exists_follow (hv : t.Valid) (hs : ∀ i ∈ s, i < t.size) (symbol : String) :
    ∃ next, t.follow s symbol = .ok next ∧ t.Successor s symbol next :=
  finds_gather fun i hi => hv.finds_targetIndices (hs i hi) symbol

/-- Different sets of positions of states. -/
structure Found (t : Table) (found : List IndexSet) : Prop where
  nodup : found.Nodup
  lt : ∀ s ∈ found, ∀ i ∈ s, i < t.size

/-- A set is found once. -/
theorem Found.index_unique (h : t.Found found) {k m : Nat} (hk : found[k]? = some s)
    (hm : found[m]? = some s) : k = m :=
  (List.getElem?_inj (List.getElem?_eq_some_iff.1 hk).1 h.nodup).1 (hk.trans hm.symm)

/-- There are no more sets than there are subsets of the states. -/
theorem Found.length_le (h : t.Found found) : found.length ≤ 2 ^ t.size := by
  have hinj : ∀ s ∈ found, ∀ s' ∈ found, s.toList.toFinset = s'.toList.toFinset → s = s' := by
    intro s _ s' _ he
    refine OrderedSet.ext fun i => ?_
    rw [OrderedSet.mem_iff, OrderedSet.mem_iff, ← List.mem_toFinset, he, List.mem_toFinset]
  have hnodup := h.nodup.map_on hinj
  rw [← List.length_map (fun s : IndexSet => s.toList.toFinset),
    ← List.toFinset_card_of_nodup hnodup]
  have hsub : (found.map fun s : IndexSet => s.toList.toFinset).toFinset ⊆
      (Finset.range t.size).powerset := by
    intro x hx
    obtain ⟨s, hs, rfl⟩ := List.mem_map.1 (List.mem_toFinset.1 hx)
    refine Finset.mem_powerset.2 fun i hi => Finset.mem_range.2 ?_
    exact h.lt s hs i (List.mem_toFinset.1 hi)
  refine (Finset.card_le_card hsub).trans ?_
  rw [Finset.card_powerset, Finset.card_range]

/-- The names stored for a set: none for the empty set, else the name of its position. -/
def NamedIn (found : List IndexSet) (s : IndexSet) (names : List String) : Prop :=
  s.isEmpty = true ∧ names = [] ∨
    s.isEmpty = false ∧ ∃ k, found[k]? = some s ∧ names = [subsetName k]

theorem NamedIn.mono {names : List String} (h : NamedIn found s names) (hp : found <+: found') :
    NamedIn found' s names := by
  refine h.imp_right fun ⟨hne, k, hk, hn⟩ => ⟨hne, k, ?_, hn⟩
  obtain ⟨more, rfl⟩ := hp
  rw [List.getElem?_append_left (List.getElem?_eq_some_iff.1 hk).1, hk]

/-- Following one more symbol. -/
theorem Valid.exists_exploreSymbol (hv : t.Valid) (hf : t.Found found)
    (hs : ∀ i ∈ current, i < t.size) (row : Dict (List String)) (symbol : String) :
    ∃ found' next names, t.exploreSymbol current (found, row) symbol =
        .ok (found', row.insert symbol names) ∧
      found <+: found' ∧ t.Found found' ∧ t.Successor current symbol next ∧
      NamedIn found' next names := by
  obtain ⟨next, hok, hnext⟩ := hv.exists_follow hs symbol
  have hlt : ∀ j ∈ next, j < t.size := by
    intro j hj
    obtain ⟨i, -, hij⟩ := (hnext j).1 hj
    exact hij.lt.2
  simp only [exploreSymbol, hok, bind, Except.bind]
  split
  · rename_i hempty
    exact ⟨found, next, [], rfl, List.prefix_rfl, hf, hnext, .inl ⟨hempty, rfl⟩⟩
  · rename_i hempty
    rw [Bool.not_eq_true] at hempty
    split
    · rename_i k hk
      obtain ⟨hlt, hk, -⟩ := List.findIdx?_eq_some_iff_getElem.1 hk
      have hk : found[k]? = some next := by
        rw [List.getElem?_eq_getElem hlt, of_decide_eq_true hk]
      exact ⟨found, next, _, rfl, List.prefix_rfl, hf, hnext, .inr ⟨hempty, k, hk, rfl⟩⟩
    · rename_i hnone
      have hnot : next ∉ found := fun hm =>
        absurd (List.findIdx?_eq_none_iff.1 hnone next hm) (by simp)
      refine ⟨found ++ [next], next, _, rfl, List.prefix_append _ _, ⟨?_, ?_⟩, hnext,
        .inr ⟨hempty, found.length, List.getElem?_concat_length, rfl⟩⟩
      · rw [List.nodup_append]
        refine ⟨hf.nodup, List.nodup_singleton _, ?_⟩
        rintro a ha b hb rfl
        exact hnot (List.mem_singleton.1 hb ▸ ha)
      · intro s hs
        rcases List.mem_append.1 hs with hs | hs
        · exact hf.lt s hs
        · rw [List.mem_singleton.1 hs]
          exact hlt

/-! ## The row of a set -/

/-- A row that leads a set on in each of some columns. -/
def RowFor (t : Table) (found : List IndexSet) (s : IndexSet) (symbols : List String)
    (row : Dict (List String)) : Prop :=
  ∀ a ∈ symbols, ∃ next names, t.Successor s a next ∧ NamedIn found next names ∧
    row.get? a = some names

theorem RowFor.mono {symbols : List String} {row : Dict (List String)}
    (h : t.RowFor found s symbols row) (hp : found <+: found') : t.RowFor found' s symbols row := by
  intro a ha
  obtain ⟨next, names, hnext, hnamed, hget⟩ := h a ha
  exact ⟨next, names, hnext, hnamed.mono hp, hget⟩

/-- Following all symbols. -/
theorem Valid.exists_exploreSymbols (hv : t.Valid) (symbols : List String) (hf : t.Found found)
    (hs : ∀ i ∈ current, i < t.size) (row : Dict (List String)) :
    ∃ found' row', symbols.foldlM (t.exploreSymbol current) (found, row) = .ok (found', row') ∧
      found <+: found' ∧ t.Found found' ∧ t.RowFor found' current symbols row' ∧
      ∀ a, a ∉ symbols → row'.get? a = row.get? a := by
  induction symbols generalizing found row with
  | nil => exact ⟨found, row, rfl, List.prefix_rfl, hf, List.forall_mem_nil _, fun _ _ => rfl⟩
  | cons b symbols ih =>
    obtain ⟨found₁, next, names, hok, hp₁, hf₁, hnext, hnamed⟩ :=
      hv.exists_exploreSymbol hf hs row b
    obtain ⟨found₂, row₂, hok₂, hp₂, hf₂, hrow, hother⟩ := ih hf₁ (row.insert b names)
    refine ⟨found₂, row₂, ?_, hp₁.trans hp₂, hf₂, fun a ha => ?_, fun a ha => ?_⟩
    · rw [List.foldlM_cons, hok]
      exact hok₂
    · by_cases hmem : a ∈ symbols
      · exact hrow a hmem
      · obtain rfl : a = b := (List.mem_cons.1 ha).resolve_right hmem
        refine ⟨next, names, hnext, hnamed.mono hp₂, ?_⟩
        rw [hother a hmem, Dict.get?_insert, if_pos rfl]
    · rw [List.mem_cons, not_or] at ha
      rw [hother a ha.2, Dict.get?_insert, if_neg ha.1]

/-- The row of a set: it leads the set on in each column, and has no others. -/
structure RowOf (t : Table) (found : List IndexSet) (s : IndexSet) (row : Dict (List String)) :
    Prop where
  rowFor : t.RowFor found s t.symbols row
  none : ∀ a, a ∉ t.symbols → row.get? a = none

/-! ## All rows -/

/-- What holds while sets are found: the first `k` of them have rows, which lead on to sets that
are found. -/
structure Exploring (t : Table) (k : Nat) (e : Exploration) : Prop where
  sets : t.Found e.found
  initial : e.found[0]? = some t.initial
  le : k ≤ e.found.length
  rows : ∀ m s, m < k → e.found[m]? = some s → ∃ row, e.rows.get? (subsetName m) = some row ∧
    t.RowOf e.found s row
  keys : ∀ name row, e.rows.get? name = some row → ∃ m < k, name = subsetName m

theorem getElem?_of_extends {α : Type} {xs ys : List α} (hp : xs <+: ys) {m : Nat}
    (hm : m < xs.length) : ys[m]? = xs[m]? := by
  obtain ⟨more, rfl⟩ := hp
  exact List.getElem?_append_left hm

/-- One more set gets its row. -/
theorem Exploring.step {k : Nat} {e : Exploration} {row : Dict (List String)}
    (h : t.Exploring k e) (hk : e.found[k]? = some current) (hp : e.found <+: found')
    (hf : t.Found found') (hrow : t.RowOf found' current row) :
    t.Exploring (k + 1) ⟨found', e.rows.insert (subsetName k) row⟩ where
  sets := hf
  initial := by
    have hlt : 0 < e.found.length := (List.getElem?_eq_some_iff.1 h.initial).1
    exact (getElem?_of_extends hp hlt).trans h.initial
  le := Nat.le_trans (Nat.succ_le_of_lt (List.getElem?_eq_some_iff.1 hk).1) hp.length_le
  rows m s hm hs := by
    have hlt : m < e.found.length :=
      Nat.lt_of_le_of_lt (Nat.le_of_lt_succ hm) (List.getElem?_eq_some_iff.1 hk).1
    have hs' : e.found[m]? = some s := (getElem?_of_extends hp hlt).symm.trans hs
    change ∃ row', Dict.get? _ _ = _ ∧ _
    rw [Dict.get?_insert]
    by_cases he : m = k
    · subst he
      cases hk.symm.trans hs'
      exact ⟨row, if_pos rfl, hrow⟩
    · obtain ⟨row', hget, hfor, hnone⟩ := h.rows m s (by omega) hs'
      rw [if_neg fun hn => he (subsetName_inj hn)]
      exact ⟨row', hget, hfor.mono hp, hnone⟩
  keys name row' hget := by
    change Dict.get? _ _ = _ at hget
    rw [Dict.get?_insert] at hget
    split at hget
    · exact ⟨k, Nat.lt_succ_self k, ‹_›⟩
    · obtain ⟨m, hm, he⟩ := h.keys name row' hget
      exact ⟨m, Nat.lt_succ_of_lt hm, he⟩

/-- The sets that are found get their rows one after the other, from the one after the first `k`
on, until none is left. -/
inductive Explores (t : Table) : Nat → Exploration → Exploration → Prop
  | done {k : Nat} {e : Exploration} : e.found[k]? = none → Explores t k e e
  | next {k : Nat} {e last : Exploration} {current : IndexSet} {found : List IndexSet}
      {row : Dict (List String)} : e.found[k]? = some current →
      t.symbols.foldlM (t.exploreSymbol current) (e.found, .empty) = .ok (found, row) →
      Explores t (k + 1) ⟨found, e.rows.insert (subsetName k) row⟩ last → Explores t k e last

/-- A run that succeeds has gone through all sets, whatever fuel it has. -/
theorem explores_of_explore {fuel k : Nat} {e last : Exploration}
    (h : t.explore fuel k e = .ok last) : t.Explores k e last := by
  induction fuel generalizing k e with
  | zero =>
    unfold explore at h
    split at h
    · cases h
      exact .done ‹_›
    · cases h
  | succ fuel ih =>
    unfold explore at h
    split at h
    · cases h
      exact .done ‹_›
    · obtain ⟨⟨found, row⟩, hfold, h⟩ := bind_eq_ok_iff.1 h
      exact .next ‹_› hfold (ih h)

theorem Explores.unique {k : Nat} {e last last' : Exploration} (h : t.Explores k e last)
    (h' : t.Explores k e last') : last = last' := by
  induction h with
  | done hk =>
    cases h' with
    | done => rfl
    | next hk' => cases hk.symm.trans hk'
  | next hk hfold _ ih =>
    cases h' with
    | done hk' => cases hk.symm.trans hk'
    | next hk' hfold' h' =>
      cases hk.symm.trans hk'
      cases hfold.symm.trans hfold'
      exact ih h'

/-- With fuel for all subsets every set that is found gets its row. -/
theorem Valid.exists_explore (hv : t.Valid) {k : Nat} {e : Exploration}
    (h : t.Exploring k e) (fuel : Nat) (hfuel : 2 ^ t.size ≤ fuel + k) :
    ∃ e', t.explore fuel k e = .ok e' ∧ t.Exploring e'.found.length e' := by
  induction fuel generalizing k e with
  | zero =>
    -- there cannot be more sets than have got their rows
    have hlen := h.sets.length_le
    have hle := h.le
    obtain rfl : k = e.found.length := by omega
    exact ⟨e, by rw [explore, List.getElem?_length], h⟩
  | succ fuel ih =>
    unfold explore
    split
    · rename_i hnone
      have hge := List.getElem?_eq_none_iff.1 hnone
      obtain rfl : k = e.found.length := Nat.le_antisymm h.le hge
      exact ⟨e, rfl, h⟩
    · rename_i current hk
      have hlt := h.sets.lt current (List.mem_of_getElem? hk)
      obtain ⟨found', row, hok, hp, hf, hfor, hother⟩ :=
        hv.exists_exploreSymbols t.symbols h.sets hlt .empty
      rw [hok]
      exact ih (h.step hk hp hf ⟨hfor, hother⟩) (by omega)

/-! ## The deterministic table -/

/-- A table whose states are named for sets of states of another and lead on as these do. -/
structure Determinized (t r : Table) (found : List IndexSet) : Prop where
  valid : r.Valid
  sets : t.Found found
  initial : found[0]? = some t.initial
  symbols_eq : r.symbols = t.symbols
  mem_states_iff : ∀ p, p ∈ r.states ↔ ∃ k < found.length, p = subsetName k
  mem_starts_iff : ∀ x, x ∈ r.starts ↔ r.states[x]? = some (subsetName 0)
  mem_finals_iff : ∀ x, x ∈ r.finals ↔ ∃ k s, r.states[x]? = some (subsetName k) ∧
    found[k]? = some s ∧ s.any t.isFinal = true
  targets_marker : ∀ state, r.targets state r.marker = []
  targets : ∀ k s, found[k]? = some s → ∀ a ∈ t.symbols, ∃ next, t.Successor s a next ∧
    NamedIn found next (r.targets (subsetName k) a)

/-- The sets that are found with their names. -/
def namedSets (found : List IndexSet) : Dict IndexSet :=
  .ofList (found.mapIdx fun k s => (subsetName k, s))

theorem get?_namedSets {p : String} :
    (namedSets found).get? p = some s ↔ ∃ k, p = subsetName k ∧ found[k]? = some s := by
  have hnodup : ((found.mapIdx fun k s => (subsetName k, s)).map Prod.fst).Nodup := by
    rw [List.nodup_iff_pairwise_ne, List.pairwise_iff_getElem]
    intro i j hi hj hij he
    rw [List.getElem_map, List.getElem_map, List.getElem_mapIdx, List.getElem_mapIdx] at he
    exact Nat.ne_of_lt hij (subsetName_inj he)
  rw [namedSets, Dict.get?_ofList hnodup, List.mem_iff_getElem?]
  simp only [List.getElem?_mapIdx, Option.map_eq_some_iff, Prod.mk.injEq]
  constructor
  · rintro ⟨k, s', hs, rfl, rfl⟩
    exact ⟨k, rfl, hs⟩
  · rintro ⟨k, rfl, hs⟩
    exact ⟨k, s, hs, rfl, rfl⟩

/-- The deterministic table of an exploration. -/
def deterministic (t : Table) (e : Exploration) : Table where
  states := (namedSets e.found).keys
  alphabet := t.symbols
  marker := t.marker
  moves := e.rows
  starts := .positions (·.1 = subsetName 0) (namedSets e.found).entries
  finals := .positions (·.2.any t.isFinal) (namedSets e.found).entries

theorem getElem?_keys {x : Nat} {p : String} : (namedSets found).keys[x]? = some p ↔
    ∃ s, (namedSets found).entries[x]? = some (p, s) := by
  rw [Dict.keys, List.getElem?_map, Option.map_eq_some_iff]
  constructor
  · rintro ⟨⟨q, s⟩, he, rfl⟩
    exact ⟨s, he⟩
  · rintro ⟨s, he⟩
    exact ⟨(p, s), he, rfl⟩

theorem getElem?_entries {x : Nat} {p : String} :
    (namedSets found).entries[x]? = some (p, s) ↔
      ∃ k, p = subsetName k ∧ found[k]? = some s ∧ (namedSets found).keys[x]? = some p := by
  constructor
  · intro he
    obtain ⟨k, rfl, hk⟩ := get?_namedSets.1 (Dict.mem_entries_iff.1 (List.mem_of_getElem? he))
    exact ⟨k, rfl, hk, getElem?_keys.2 ⟨s, he⟩⟩
  · rintro ⟨k, rfl, hk, hkey⟩
    obtain ⟨s', he⟩ := getElem?_keys.1 hkey
    obtain ⟨k', hk', hs'⟩ := get?_namedSets.1 (Dict.mem_entries_iff.1 (List.mem_of_getElem? he))
    obtain rfl := subsetName_inj hk'
    cases hk.symm.trans hs'
    exact he

section Deterministic

variable {e : Exploration}

theorem mem_states_deterministic {p : String} :
    p ∈ (t.deterministic e).states ↔ ∃ k < e.found.length, p = subsetName k := by
  change p ∈ (namedSets e.found).keys ↔ _
  rw [Dict.mem_keys_iff]
  simp only [get?_namedSets]
  constructor
  · rintro ⟨s, k, rfl, hk⟩
    exact ⟨k, (List.getElem?_eq_some_iff.1 hk).1, rfl⟩
  · rintro ⟨k, hk, rfl⟩
    exact ⟨_, k, rfl, List.getElem?_eq_getElem hk⟩

/-- Each row that is stored is that of a set. -/
theorem Exploring.rowOf (h : t.Exploring e.found.length e) {name : String}
    {row : Dict (List String)} (hrow : (name, row) ∈ e.rows.entries) :
    ∃ k s, name = subsetName k ∧ e.found[k]? = some s ∧ t.RowOf e.found s row := by
  have hget := Dict.mem_entries_iff.1 hrow
  obtain ⟨k, hk, rfl⟩ := h.keys name row hget
  have hs : e.found[k]? = some e.found[k] := List.getElem?_eq_getElem hk
  obtain ⟨row', hget', hrow'⟩ := h.rows k _ hk hs
  cases hget.symm.trans hget'
  exact ⟨k, _, rfl, hs, hrow'⟩

theorem RowOf.mem_symbols {row : Dict (List String)} (h : t.RowOf found s row)
    {column : String × List String} (hc : column ∈ row.entries) : column.1 ∈ t.symbols := by
  by_contra hnot
  have := Dict.mem_entries_iff.1 (show (column.1, column.2) ∈ row.entries from hc)
  rw [h.none _ hnot] at this
  cases this

theorem RowOf.namedIn {row : Dict (List String)} (h : t.RowOf found s row)
    {column : String × List String} (hc : column ∈ row.entries) :
    ∃ next, NamedIn found next column.2 := by
  obtain ⟨next, names, -, hnamed, hget⟩ := h.rowFor _ (h.mem_symbols hc)
  cases (Dict.mem_entries_iff.1 (show (column.1, column.2) ∈ row.entries from hc)).symm.trans hget
  exact ⟨next, hnamed⟩

theorem NamedIn.of_mem {names : List String} {q : String} (h : NamedIn found s names)
    (hq : q ∈ names) : s.isEmpty = false ∧ ∃ k, q = subsetName k ∧ found[k]? = some s := by
  rcases h with ⟨-, rfl⟩ | ⟨hne, k, hk, rfl⟩
  · cases hq
  · exact ⟨hne, k, List.mem_singleton.1 hq, hk⟩

theorem Exploring.valid (h : t.Exploring e.found.length e) : (t.deterministic e).Valid where
  nodup := (namedSets e.found).nodup_keys
  starts_lt x hx := by
    obtain ⟨entry, he, -⟩ := IndexSet.mem_positions.1 hx
    simpa [deterministic, size, Dict.keys] using (List.getElem?_eq_some_iff.1 he).1
  finals_lt x hx := by
    obtain ⟨entry, he, -⟩ := IndexSet.mem_positions.1 hx
    simpa [deterministic, size, Dict.keys] using (List.getElem?_eq_some_iff.1 he).1
  rows row hrow := by
    obtain ⟨k, s, hname, hk, -⟩ := h.rowOf hrow
    exact mem_states_deterministic.2 ⟨k, (List.getElem?_eq_some_iff.1 hk).1, hname⟩
  columns row hrow column hcolumn := by
    obtain ⟨k, s, -, -, hrowOf⟩ := h.rowOf hrow
    exact hrowOf.mem_symbols hcolumn
  targets row hrow column hcolumn q hq := by
    obtain ⟨k, s, -, -, hrowOf⟩ := h.rowOf hrow
    obtain ⟨next, hnamed⟩ := hrowOf.namedIn hcolumn
    obtain ⟨-, m, hname, hm⟩ := hnamed.of_mem hq
    exact mem_states_deterministic.2 ⟨m, (List.getElem?_eq_some_iff.1 hm).1, hname⟩

/-- The table made of all that is found. -/
theorem Exploring.determinized (h : t.Exploring e.found.length e) :
    Determinized t (t.deterministic e) e.found where
  valid := h.valid
  sets := h.sets
  initial := h.initial
  symbols_eq := List.filter_eq_self.2 fun _ hs => (List.mem_filter.1 hs).2
  mem_states_iff _ := mem_states_deterministic
  mem_starts_iff x := by
    change x ∈ IndexSet.positions (·.1 = subsetName 0) (namedSets e.found).entries ↔
      (namedSets e.found).keys[x]? = some (subsetName 0)
    rw [IndexSet.mem_positions, getElem?_keys]
    constructor
    · rintro ⟨⟨p, s⟩, he, hp⟩
      obtain rfl : p = subsetName 0 := of_decide_eq_true hp
      exact ⟨s, he⟩
    · rintro ⟨s, he⟩
      exact ⟨_, he, decide_eq_true rfl⟩
  mem_finals_iff x := by
    change x ∈ IndexSet.positions (·.2.any t.isFinal) (namedSets e.found).entries ↔ _
    rw [IndexSet.mem_positions]
    constructor
    · rintro ⟨⟨p, s⟩, he, hany⟩
      obtain ⟨k, rfl, hk, hkey⟩ := getElem?_entries.1 he
      exact ⟨k, s, hkey, hk, hany⟩
    · rintro ⟨k, s, hkey, hk, hany⟩
      exact ⟨_, getElem?_entries.2 ⟨k, rfl, hk, hkey⟩, hany⟩
  targets_marker := h.valid.targets_marker (marker_not_mem_symbols t)
  targets k s hk a ha := by
    obtain ⟨row, hget, hrow⟩ := h.rows k s (List.getElem?_eq_some_iff.1 hk).1 hk
    obtain ⟨next, names, hnext, hnamed, hnames⟩ := hrow.rowFor a ha
    refine ⟨next, hnext, ?_⟩
    have htargets : (t.deterministic e).targets (subsetName k) a = names := by
      unfold targets deterministic
      rw [hget]
      change (row.get? a).getD [] = names
      rw [hnames]
      rfl
    rwa [htargets]

end Deterministic

/-- The members of the sets that are found, by the names of the sets. -/
abbrev Members (t : Table) (found : List IndexSet) (members : List (String × List String)) : Prop :=
  (namedSets found).entries.mapM (fun x => (t.namesAt x.2).map (x.1, ·)) = .ok members

/-- For tables with states and without moves without reading the construction finds sets, with a
row for each, and names their members. -/
theorem Valid.exists_exploration (hv : t.Valid) (hne : t.states ≠ [])
    (hmarker : ∀ state, t.targets state t.marker = []) :
    ∃ e members, t.explore (2 ^ t.size) 0 ⟨[t.initial], .empty⟩ = .ok e ∧
      t.Exploring e.found.length e ∧ t.Members e.found members ∧
      t.determinize = .ok ⟨t.deterministic e, .ofList members⟩ := by
  have hstart : t.Exploring 0 ⟨[t.initial], .empty⟩ := by
    refine ⟨⟨List.nodup_singleton _, ?_⟩, rfl, Nat.zero_le _, fun m s hm => ?_,
      fun name row hrow => ?_⟩
    · exact List.forall_mem_singleton.2 (hv.initial_lt hne)
    · exact absurd hm (Nat.not_lt_zero m)
    · cases hrow
  obtain ⟨e, hok, he⟩ := hv.exists_explore hstart (2 ^ t.size) (Nat.le_refl _)
  have hmembers : ∀ x ∈ (namedSets e.found).entries, ∃ y,
      (t.namesAt x.2).map (x.1, ·) = .ok y := by
    rintro ⟨p, s⟩ hx
    obtain ⟨k, -, hk⟩ := get?_namedSets.1 (Dict.mem_entries_iff.1 hx)
    obtain ⟨names, hnames, -⟩ := exists_mapM_entry (he.sets.lt s (List.mem_of_getElem? hk))
    exact ⟨_, map_eq_ok_iff.2 ⟨names, hnames, rfl⟩⟩
  obtain ⟨members, hmembers⟩ := exists_mapM hmembers
  refine ⟨e, members, hok, he, hmembers, ?_⟩
  rw [determinize, validate_eq_ok_iff.2 hv, hv.firstEpsilonState?_eq_none_iff.2 hmarker,
    List.isEmpty_eq_false_iff.2 hne]
  change (t.explore (2 ^ t.size) 0 ⟨[t.initial], .empty⟩ >>= _) = _
  rw [hok]
  change ((namedSets e.found).entries.mapM (fun x => (t.namesAt x.2).map (x.1, ·)) >>= _) = _
  rw [hmembers]
  rfl

/-- The subset construction succeeds for tables with states and without moves without reading. -/
theorem Valid.exists_determinize (hv : t.Valid) (hne : t.states ≠ [])
    (hmarker : ∀ state, t.targets state t.marker = []) :
    ∃ d found, t.determinize = .ok d ∧ Determinized t d.table found := by
  obtain ⟨e, members, -, he, -, hok⟩ := hv.exists_exploration hne hmarker
  exact ⟨_, e.found, hok, he.determinized⟩

/-! ## The same words -/

/-- A state of the deterministic table stands for a set. -/
def StandsFor (r : Table) (found : List IndexSet) (x : Nat) (s : IndexSet) : Prop :=
  ∃ k, r.states[x]? = some (subsetName k) ∧ found[k]? = some s

namespace Determinized

variable {x y : Nat}

/-- Some state stands for each set that is found. -/
theorem exists_standsFor (h : Determinized t r found) {k : Nat} (hk : found[k]? = some s) :
    ∃ x, r.states[x]? = some (subsetName k) ∧ StandsFor r found x s := by
  have hmem := (h.mem_states_iff _).2 ⟨k, (List.getElem?_eq_some_iff.1 hk).1, rfl⟩
  obtain ⟨x, hx⟩ := List.mem_iff_getElem?.1 hmem
  exact ⟨x, hx, k, hx, hk⟩

/-- A state leads to those that stand for what its set leads to. -/
theorem follows_iff (h : Determinized t r found) (hx : StandsFor r found x s) {a : String}
    (ha : a ∈ t.symbols) (hnext : t.Successor s a next) :
    r.Follows x a y ↔ next.isEmpty = false ∧ StandsFor r found y next := by
  obtain ⟨k, hxk, hk⟩ := hx
  obtain ⟨next', hnext', hnamed⟩ := h.targets k s hk a ha
  obtain rfl := hnext.unique hnext'
  constructor
  · rintro ⟨p, q, hp, hq, hy⟩
    cases hxk.symm.trans hp
    obtain ⟨hne, m, rfl, hm⟩ := hnamed.of_mem hq
    exact ⟨hne, m, hy, hm⟩
  · rintro ⟨hne, m, hy, hm⟩
    refine ⟨_, _, hxk, ?_, hy⟩
    rcases hnamed with ⟨hempty, -⟩ | ⟨-, m', hm', hnames⟩
    · rw [hempty] at hne
      cases hne
    · rw [hnames, h.sets.index_unique hm hm']
      exact List.mem_cons_self

theorem mem_finals_iff_of_standsFor (h : Determinized t r found) (hx : StandsFor r found x s) :
    x ∈ r.finals ↔ ∃ i ∈ s, i ∈ t.finals := by
  obtain ⟨m, hm, hs⟩ := hx
  rw [h.mem_finals_iff]
  constructor
  · rintro ⟨k, s', hk, hs', hany⟩
    obtain rfl := subsetName_inj (Option.some.inj (hk.symm.trans hm))
    cases hs.symm.trans hs'
    obtain ⟨i, hi, hf⟩ := OrderedSet.any_eq_true_iff.1 hany
    exact ⟨i, hi, of_decide_eq_true hf⟩
  · rintro ⟨i, hi, hf⟩
    exact ⟨m, s, hm, hs, OrderedSet.any_eq_true_iff.2 ⟨i, hi, decide_eq_true hf⟩⟩

/-- A state leads to final states by the words by which the members of its set do. -/
theorem leads_iff (h : Determinized t r found) (hmarker : ∀ state, t.targets state t.marker = [])
    (hx : StandsFor r found x s) {w : List Char} :
    (∃ y ∈ r.finals, r.arrows.Path x w y) ↔ t.Leads s w := by
  induction w generalizing x s with
  | nil =>
    constructor
    · rintro ⟨y, hy, hp⟩
      obtain rfl := eq_of_reaches h.targets_marker hp
      obtain ⟨i, hi, hf⟩ := (h.mem_finals_iff_of_standsFor hx).1 hy
      exact ⟨i, hi, i, hf, .nil⟩
    · rintro ⟨i, hi, j, hj, hp⟩
      obtain rfl := eq_of_reaches hmarker hp
      exact ⟨x, (h.mem_finals_iff_of_standsFor hx).2 ⟨i, hi, hj⟩, .nil⟩
  | cons char w ih =>
    simp only [Leads, path_cons_iff h.targets_marker, path_cons_iff hmarker]
    constructor
    · rintro ⟨z, hz, y, ⟨a, ha, l, hl, hc, hf⟩, hp⟩
      rw [h.symbols_eq] at ha
      obtain ⟨k, hk, hs⟩ := hx
      obtain ⟨next, hnext, -⟩ := h.targets k s hs a ha
      obtain ⟨-, hy⟩ := (h.follows_iff ⟨k, hk, hs⟩ ha hnext).1 hf
      obtain ⟨i', hi', j, hj, hp'⟩ := (ih hy).1 ⟨z, hz, hp⟩
      obtain ⟨i, hi, hii'⟩ := (hnext i').1 hi'
      exact ⟨i, hi, j, hj, i', ⟨a, ha, l, hl, hc, hii'⟩, hp'⟩
    · rintro ⟨i, hi, j, hj, i', ⟨a, ha, l, hl, hc, hf⟩, hp⟩
      obtain ⟨k, hk, hs⟩ := hx
      obtain ⟨next, hnext, hnamed⟩ := h.targets k s hs a ha
      -- the successor holds a state, so it is a set that was found
      have hi' : i' ∈ next := (hnext i').2 ⟨i, hi, hf⟩
      have hne : next.isEmpty = false :=
        Bool.eq_false_iff.2 fun he => OrderedSet.isEmpty_eq_true_iff.1 he i' hi'
      rcases hnamed with ⟨hempty, -⟩ | ⟨-, m, hm, -⟩
      · rw [hne] at hempty
        cases hempty
      · obtain ⟨y, -, hy⟩ := h.exists_standsFor hm
        obtain ⟨z, hz, hp'⟩ := (ih hy).2 ⟨i', hi', j, hj, hp⟩
        refine ⟨z, hz, y, ⟨a, by rwa [h.symbols_eq], l, hl, hc, ?_⟩, hp'⟩
        exact (h.follows_iff ⟨k, hk, hs⟩ ha hnext).2 ⟨hne, hy⟩

theorem states_ne (h : Determinized t r found) : r.states ≠ [] := by
  obtain ⟨x, hx, -⟩ := h.exists_standsFor h.initial
  exact List.ne_nil_of_mem (List.mem_of_getElem? hx)

/-- The one start state stands for the initial states. -/
theorem exists_start (h : Determinized t r found) :
    ∃ x, r.starts = .singleton x ∧ r.initial = .singleton x ∧ StandsFor r found x t.initial := by
  obtain ⟨x, hx, hstands⟩ := h.exists_standsFor h.initial
  have hstarts : r.starts = .singleton x := by
    refine OrderedSet.ext fun y => ?_
    rw [h.mem_starts_iff, OrderedSet.mem_singleton]
    exact ⟨fun hy => getElem?_states_inj h.valid.nodup hy hx, fun he => he ▸ hx⟩
  refine ⟨x, hstarts, ?_, hstands⟩
  rw [Table.initial, hstarts]
  rfl

/-- The words stay the same. -/
theorem language_eq (h : Determinized t r found)
    (hmarker : ∀ state, t.targets state t.marker = []) : r.language = t.language := by
  obtain ⟨x, -, hinitial, hstands⟩ := h.exists_start
  ext w
  constructor
  · rintro ⟨y, z, hy, hz, hp⟩
    rw [hinitial, OrderedSet.mem_singleton] at hy
    subst hy
    obtain ⟨i, hi, j, hj, hp⟩ := (h.leads_iff hmarker hstands).1 ⟨z, hz, hp⟩
    exact ⟨i, j, hi, hj, hp⟩
  · rintro ⟨i, j, hi, hj, hp⟩
    obtain ⟨z, hz, hp⟩ := (h.leads_iff hmarker hstands).2 ⟨i, hi, j, hj, hp⟩
    exact ⟨x, z, hinitial ▸ OrderedSet.mem_singleton.2 rfl, hz, hp⟩

end Determinized

/-- The subset construction keeps the answer to every input, be it a fault. Its columns may
overlap, be repeated or be no labels. -/
theorem determinize_agrees {t : Table} (hv : t.validate = .ok ()) (hne : t.states ≠ [])
    (hm : t.hasEpsilonMoves = false) :
    ∃ d, t.determinize = .ok d ∧ ∀ input : String, d.table.accepts input = t.accepts input := by
  have hvalid := validate_eq_ok_iff.1 hv
  have hmarker := hvalid.hasEpsilonMoves_eq_false_iff.1 hm
  obtain ⟨d, found, hd, h⟩ := hvalid.exists_determinize hne hmarker
  refine ⟨d, hd, fun input => ?_⟩
  exact h.valid.accepts_eq hvalid (iff_of_false h.states_ne hne) h.symbols_eq
    (fun _ => h.language_eq hmarker) input

/-- Columns that overlap, one of them there twice. Some sequences of symbols lead nowhere. -/
def unruly : Table :=
  (((ofStates ["p", "q", "r"] [".", "[a-c]", "."] usualMarker).store
    [⟨"p", "[a-c]", ["q", "p"]⟩, ⟨"q", ".", ["r"]⟩, ⟨"r", "[a-c]", ["q"]⟩]).markStart 0).markFinal 2

theorem determinize_agrees_unruly : ∃ d, unruly.determinize = .ok d ∧
    ∀ input : String, d.table.accepts input = unruly.accepts input := by
  have hvalid : unruly.Valid := by decide +kernel
  exact determinize_agrees (validate_eq_ok_iff.2 hvalid) (by decide) (by decide +kernel)

end Acceptor.Table
