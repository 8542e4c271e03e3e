/-
Removing the moves without reading from a table. Main statements: it succeeds for a valid table,
whose states then lead to final states by the same words (`Eliminated.leads_iff`), so the words of
the table stay the same (`Eliminated.language_eq`).
-/
import Acceptor.Proofs.Names
import Acceptor.Proofs.Table.Acceptance
import Acceptor.Table.Elimination

namespace Acceptor.Table

variable {t r : Table} {c : Closures} {i j : Nat} {symbol : String}

/-- What follows a state in a column, with moves without reading before and after it. -/
def FollowsAround (t : Table) (i : Nat) (symbol : String) (j : Nat) : Prop :=
  ∃ q d, t.Reaches i q ∧ t.Follows q symbol d ∧ t.Reaches d j

/-- A table whose moves take in the moves without reading of another. -/
structure Eliminated (t r : Table) : Prop where
  valid : r.Valid
  size_eq : r.size = t.size
  symbols_eq : r.symbols = t.symbols
  marker_eq : r.marker = t.marker
  starts_eq : r.starts = t.starts
  mem_finals_iff : ∀ i, i ∈ r.finals ↔ i < t.size ∧ ∃ k ∈ t.finals, t.Reaches i k
  targets_marker : ∀ state, r.targets state r.marker = []
  follows_iff : ∀ symbol ∈ t.symbols, ∀ i j, r.Follows i symbol j ↔ t.FollowsAround i symbol j

/-! ## Entries -/

theorem FollowsAround.lt (h : t.FollowsAround i symbol j) : i < t.size ∧ j < t.size := by
  obtain ⟨q, d, hiq, hqd, hdj⟩ := h
  refine ⟨?_, hdj.lt hqd.lt.2⟩
  cases Relation.ReflTransGen.cases_head (Arrows.silent_iff.1 hiq) with
  | inl he => exact he ▸ hqd.lt.1
  | inr hm => exact (arrows_nil_iff.1 hm.choose_spec.1).lt.1

/-- What a symbol leads to from the members of a closure is found. -/
theorem Valid.finds_reachedBy (hv : t.Valid) (hc : Closes c t) {closure : IndexSet}
    (hclosure : ∀ q, q ∈ closure ↔ t.Reaches i q) (hi : i < t.size) (symbol : String) :
    Finds (t.reachedBy c closure symbol) (t.FollowsAround i symbol) := by
  have hfollow : ∀ q ∈ closure, Finds (t.targetIndices q symbol >>= c.ofSet)
      fun j => ∃ d, t.Follows q symbol d ∧ t.Reaches d j := by
    intro q hq
    obtain ⟨direct, hok, hdirect⟩ :=
      hv.finds_targetIndices (((hclosure q).1 hq).lt hi) symbol
    refine finds_bind hok ((hc.finds_ofSet fun d hd => ((hdirect d).1 hd).lt.2).congr fun j => ?_)
    simp only [hdirect]
  refine (finds_gather hfollow).congr fun j => ?_
  constructor
  · rintro ⟨q, hq, d, hqd, hdj⟩
    exact ⟨q, d, (hclosure q).1 hq, hqd, hdj⟩
  · rintro ⟨q, d, hiq, hqd, hdj⟩
    exact ⟨q, (hclosure q).2 hiq, d, hqd, hdj⟩

/-- The new names of the states. -/
abbrev newNames (t : Table) : List String := (List.range t.size).map stateName

theorem getElem?_newNames {p : String} :
    t.newNames[i]? = some p ↔ i < t.size ∧ p = stateName i := by
  rw [List.getElem?_map, Option.map_eq_some_iff]
  simp only [List.getElem?_eq_some_iff, List.length_range, List.getElem_range]
  constructor
  · rintro ⟨k, ⟨hi, rfl⟩, rfl⟩
    exact ⟨hi, rfl⟩
  · rintro ⟨hi, rfl⟩
    exact ⟨i, ⟨hi, rfl⟩, rfl⟩

theorem nodup_newNames (t : Table) : t.newNames.Nodup :=
  List.nodup_range.map fun _ _ => stateName_inj

/-- An entry holds the new names of what follows a state. -/
structure CellAround (t : Table) (i : Nat) (symbol : String) (cell : Cell) : Prop where
  state_eq : cell.state = stateName i
  symbol_eq : cell.symbol = symbol
  mem_iff : ∀ q, q ∈ cell.targets ↔ ∃ j, t.FollowsAround i symbol j ∧ t.newNames[j]? = some q

/-- The entries of a state: one for each symbol. -/
theorem Valid.exists_reachedCells (hv : t.Valid) (hc : Closes c t) {closure : IndexSet}
    (hi : c.sets[i]? = some closure) : ∃ cells,
      t.reachedCells c t.newNames (closure, i) = .ok cells ∧
      List.Forall₂ (t.CellAround i) t.symbols cells := by
  have hlt : i < t.size := hc.size_eq ▸ (List.getElem?_eq_some_iff.1 hi).1
  refine exists_mapM_of fun symbol _ => ?_
  obtain ⟨reached, hok, hreached⟩ :=
    hv.finds_reachedBy hc (hc.mem_iff i closure hi) hlt symbol
  have hlen : ∀ j ∈ reached, j < t.newNames.length := by
    intro j hj
    simpa using ((hreached j).1 hj).lt.2
  obtain ⟨ts, hts, hmem⟩ := exists_mapM_entry hlen
  refine ⟨⟨stateName i, symbol, ts⟩, ?_, rfl, rfl, fun q => ?_⟩
  · rw [hok]
    change (reached.toList.mapM (entry t.newNames) >>= _) = _
    rw [hts]
    rfl
  · simp only [hmem, hreached]

/-! ## The table without moves without reading -/

/-- The new table before its moves are stored. -/
def eliminatedBase (t : Table) (c : Closures) : Table :=
  { ofStates t.newNames t.symbols t.marker with
    starts := t.starts, finals := .positions (·.any t.isFinal) c.sets }

theorem size_eliminatedBase : (t.eliminatedBase c).size = t.size := by
  simp [eliminatedBase, ofStates, size]

theorem symbols_eliminatedBase : (t.eliminatedBase c).symbols = t.symbols :=
  List.filter_eq_self.2 fun _ hs => (List.mem_filter.1 hs).2

/-- A state becomes final where its closure holds a final state. -/
theorem mem_finals_eliminatedBase :
    i ∈ (t.eliminatedBase c).finals ↔ ∃ s, c.sets[i]? = some s ∧ ∃ k ∈ s, k ∈ t.finals := by
  change i ∈ IndexSet.positions (·.any t.isFinal) c.sets ↔ _
  simp only [IndexSet.mem_positions, OrderedSet.any_eq_true_iff, isFinal, decide_eq_true_eq]

theorem Closes.mem_finals_iff (hc : Closes c t) :
    i ∈ (t.eliminatedBase c).finals ↔ i < t.size ∧ ∃ k ∈ t.finals, t.Reaches i k := by
  rw [mem_finals_eliminatedBase]
  constructor
  · rintro ⟨s, hs, k, hk, hf⟩
    have hlt : i < c.sets.length := (List.getElem?_eq_some_iff.1 hs).1
    exact ⟨hc.size_eq ▸ hlt, k, hf, (hc.mem_iff i s hs k).1 hk⟩
  · rintro ⟨hi, k, hk, hr⟩
    have hlt : i < c.sets.length := Nat.lt_of_lt_of_eq hi hc.size_eq.symm
    have hs := List.getElem?_eq_getElem hlt
    exact ⟨_, hs, k, (hc.mem_iff i _ hs k).2 hr, hk⟩

section Rows

variable {rows : List (List Cell)}

/-- The entries of all states, row by row. -/
abbrev AroundRows (t : Table) (c : Closures) (rows : List (List Cell)) : Prop :=
  List.Forall₂ (fun s cells => List.Forall₂ (t.CellAround s.2) t.symbols cells) c.sets.zipIdx rows

theorem around_of_mem (hc : Closes c t) (hrows : t.AroundRows c rows) {cell : Cell}
    (hcell : cell ∈ rows.flatten) :
    ∃ i < t.size, ∃ symbol ∈ t.symbols, t.CellAround i symbol cell := by
  obtain ⟨cells, hcells, hcell⟩ := List.mem_flatten.1 hcell
  obtain ⟨⟨s, i⟩, hs, hrow⟩ := forall₂_mem_right hrows hcells
  obtain ⟨symbol, hsymbol, hcell⟩ := forall₂_mem_right hrow hcell
  have hlt := (List.getElem?_eq_some_iff.1 (List.mem_zipIdx_iff_getElem?.1 hs)).1
  exact ⟨i, hc.size_eq ▸ hlt, symbol, hsymbol, hcell⟩

theorem describes_around (hc : Closes c t) (hrows : t.AroundRows c rows) :
    (t.eliminatedBase c).Describes (fun i a j => a ∈ t.symbols ∧ t.FollowsAround i a j)
      rows.flatten := by
  intro cell hcell
  obtain ⟨i, hi, symbol, hsymbol, hstate, rfl, htargets⟩ := around_of_mem hc hrows hcell
  refine ⟨i, getElem?_newNames.2 ⟨hi, hstate⟩, fun q => ?_⟩
  simp only [hsymbol, true_and]
  exact htargets q

theorem follows_eliminated (hc : Closes c t) (hrows : t.AroundRows c rows) :
    ((t.eliminatedBase c).store rows.flatten).Follows i symbol j ↔
      symbol ∈ t.symbols ∧ t.FollowsAround i symbol j := by
  refine follows_store_iff (nodup_newNames t) rfl (describes_around hc hrows) ?_
  rintro i a j ⟨ha, hf⟩
  have hi : i < c.sets.length := Nat.lt_of_lt_of_eq hf.lt.1 hc.size_eq.symm
  have hs : (c.sets[i], i) ∈ c.sets.zipIdx :=
    List.mem_zipIdx_iff_getElem?.2 (List.getElem?_eq_getElem hi)
  obtain ⟨cells, hcells, hrow⟩ := forall₂_mem_left hrows hs
  obtain ⟨cell, hcell, hstate, hsymbol, -⟩ := forall₂_mem_left hrow ha
  have hj : j < (t.eliminatedBase c).size := Nat.lt_of_lt_of_eq hf.lt.2 size_eliminatedBase.symm
  refine ⟨hj, cell, List.mem_flatten.2 ⟨cells, hcells, hcell⟩, ?_, hsymbol⟩
  exact getElem?_newNames.2 ⟨hf.lt.1, hstate⟩

/-- What a table is like after the entries of all states are stored. -/
theorem Valid.eliminated_store (hv : t.Valid) (hc : Closes c t) (hrows : t.AroundRows c rows) :
    Eliminated t ((t.eliminatedBase c).store rows.flatten) := by
  have hbase : (t.eliminatedBase c).Valid := by
    refine ⟨nodup_newNames t, fun i hi => ?_, fun i hi => ?_, List.forall_mem_nil _,
      List.forall_mem_nil _, List.forall_mem_nil _⟩
    · rw [size_eliminatedBase]
      exact hv.starts_lt i hi
    · rw [size_eliminatedBase]
      exact (hc.mem_finals_iff.1 hi).1
  have hvalid : ((t.eliminatedBase c).store rows.flatten).Valid := by
    refine hbase.store ((describes_around hc hrows).declared fun cell hcell => ?_)
    obtain ⟨i, -, symbol, hsymbol, -, rfl, -⟩ := around_of_mem hc hrows hcell
    exact hsymbol
  refine ⟨hvalid, ?_, ?_, marker_store _ _, starts_store _ _, fun i => ?_, fun state => ?_,
    fun a ha i j => ?_⟩
  · rw [size, states_store]
    exact size_eliminatedBase
  · rw [symbols_store]
    exact symbols_eliminatedBase
  · rw [finals_store]
    exact hc.mem_finals_iff
  · refine hvalid.targets_marker ?_ state
    rw [alphabet_store, marker_store]
    exact marker_not_mem_symbols t
  · rw [follows_eliminated hc hrows]
    exact and_iff_right ha

end Rows

/-- Removing the moves without reading finds the entries of all states and stores them. -/
theorem removeEpsilonWith_eq (hsize : c.size = t.size) :
    t.removeEpsilonWith c = (c.sets.zipIdx.mapM (t.reachedCells c t.newNames)).map fun rows =>
      (t.eliminatedBase c).store rows.flatten := by
  rw [removeEpsilonWith, if_neg (not_not.2 hsize)]
  rfl

theorem Valid.removeEpsilon_eq (hv : t.Valid) (hcok : t.closures = .ok c) (hc : Closes c t) :
    t.removeEpsilon = (c.sets.zipIdx.mapM (t.reachedCells c t.newNames)).map fun rows =>
      (t.eliminatedBase c).store rows.flatten := by
  rw [removeEpsilon, validate_eq_ok_iff.2 hv, hcok]
  exact removeEpsilonWith_eq hc.size_eq

/-- Removing the moves without reading succeeds. -/
theorem Valid.exists_removeEpsilon (hv : t.Valid) :
    ∃ r, t.removeEpsilon = .ok r ∧ Eliminated t r := by
  obtain ⟨c, hcok, hc⟩ := hv.exists_closures
  have hrow : ∀ s ∈ c.sets.zipIdx, ∃ cells, t.reachedCells c t.newNames s = .ok cells ∧
      List.Forall₂ (t.CellAround s.2) t.symbols cells :=
    fun s hs => hv.exists_reachedCells hc (List.mem_zipIdx_iff_getElem?.1 hs)
  obtain ⟨rows, hrows, hall⟩ := exists_mapM_of hrow
  refine ⟨(t.eliminatedBase c).store rows.flatten, ?_, hv.eliminated_store hc hall⟩
  rw [hv.removeEpsilon_eq hcok hc, hrows]
  rfl

theorem Eliminated.states_eq_nil_iff (h : Eliminated t r) : r.states = [] ↔ t.states = [] := by
  rw [← List.length_eq_zero_iff, ← List.length_eq_zero_iff, ← size, ← size, h.size_eq]

/-! ## The same words -/

theorem Eliminated.reads_iff (h : Eliminated t r) {char : Char} :
    r.Reads i char j ↔ ∃ q d, t.Reaches i q ∧ t.Reads q char d ∧ t.Reaches d j := by
  constructor
  · rintro ⟨a, ha, l, hl, hc, hf⟩
    rw [h.symbols_eq] at ha
    obtain ⟨q, d, hiq, hqd, hdj⟩ := (h.follows_iff a ha i j).1 hf
    exact ⟨q, d, hiq, ⟨a, ha, l, hl, hc, hqd⟩, hdj⟩
  · rintro ⟨q, d, hiq, ⟨a, ha, l, hl, hc, hqd⟩, hdj⟩
    refine ⟨a, by rwa [h.symbols_eq], l, hl, hc, ?_⟩
    exact (h.follows_iff a ha i j).2 ⟨q, d, hiq, hqd, hdj⟩

/-- A state leads to final states by the same words as before. -/
theorem Eliminated.leads_iff (h : Eliminated t r) {w : List Char} (hi : i < t.size) :
    (∃ k ∈ r.finals, r.arrows.Path i w k) ↔ ∃ k ∈ t.finals, t.arrows.Path i w k := by
  induction w generalizing i with
  | nil =>
    constructor
    · rintro ⟨k, hk, hp⟩
      rw [← eq_of_reaches h.targets_marker hp] at hk
      exact ((h.mem_finals_iff i).1 hk).2
    · rintro ⟨k, hk, hp⟩
      exact ⟨i, (h.mem_finals_iff i).2 ⟨hi, k, hk, hp⟩, .nil⟩
  | cons char w ih =>
    simp only [path_cons_iff h.targets_marker, Arrows.path_cons_iff (slow_arrows (t := t)),
      arrows_singleton_iff]
    constructor
    · rintro ⟨k, hk, j, hreads, hp⟩
      obtain ⟨q, d, hiq, hqd, hdj⟩ := h.reads_iff.1 hreads
      obtain ⟨k', hk', hp'⟩ := (ih (hdj.lt hqd.lt.2)).1 ⟨k, hk, hp⟩
      exact ⟨k', hk', q, d, hiq, hqd, Arrows.Path.append hdj hp'⟩
    · rintro ⟨k, hk, q, d, hiq, hqd, hp⟩
      obtain ⟨k', hk', hp'⟩ := (ih hqd.lt.2).2 ⟨k, hk, hp⟩
      exact ⟨k', hk', d, h.reads_iff.2 ⟨q, d, hiq, hqd, .nil⟩, hp'⟩

/-- The words stay the same. -/
theorem Eliminated.language_eq (h : Eliminated t r) (hv : t.Valid) (hne : t.states ≠ []) :
    r.language = t.language := by
  have hinitial : r.initial = t.initial := by rw [initial, initial, h.starts_eq]
  ext w
  constructor
  · rintro ⟨i, j, hi, hj, hp⟩
    rw [hinitial] at hi
    obtain ⟨k, hk, hp⟩ := (h.leads_iff (hv.initial_lt hne i hi)).1 ⟨j, hj, hp⟩
    exact ⟨i, k, hi, hk, hp⟩
  · rintro ⟨i, j, hi, hj, hp⟩
    obtain ⟨k, hk, hp⟩ := (h.leads_iff (hv.initial_lt hne i hi)).2 ⟨j, hj, hp⟩
    exact ⟨i, k, hinitial ▸ hi, hk, hp⟩

end Acceptor.Table
