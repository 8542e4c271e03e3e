/-
The subset construction on a table that it has made. A set of the first run and the state that
stands for it lead on alike (`Determinized.mirrors`), so the second run finds the states of the
first one by one, in the order in which the first run found its sets, and names them as they are
named. Main statement: `determinize_fixpoint`.
-/
import Acceptor.Proofs.Table.Lockstep
import Acceptor.Proofs.Table.Trails

namespace Acceptor.Table

variable {t r : Table} {found : List IndexSet} {s s' next next' : IndexSet} {x y : Nat} {a : String}

/-! ## A set and its state -/

/-- A set that is found, and the set of the one state that stands for it. -/
def StandsAlone (r : Table) (found : List IndexSet) (s x : IndexSet) : Prop :=
  ∃ y, StandsFor r found y s ∧ x = .singleton y

namespace Determinized

theorem standsFor_unique (h : Determinized t r found) (hx : StandsFor r found x s)
    (hy : StandsFor r found y s') : s = s' ↔ x = y := by
  obtain ⟨k, hxk, hk⟩ := hx
  obtain ⟨m, hym, hm⟩ := hy
  constructor
  · rintro rfl
    obtain rfl := h.sets.index_unique hk hm
    exact getElem?_states_inj h.valid.nodup hxk hym
  · rintro rfl
    obtain rfl := subsetName_inj (Option.some.inj (hxk.symm.trans hym))
    exact Option.some.inj (hk.symm.trans hm)

/-- The state of a set leads to the state of what follows the set, and to no other. -/
theorem matched_successor (h : Determinized t r found) (hx : StandsFor r found x s)
    (ha : a ∈ t.symbols) (hnext : t.Successor s a next)
    (hnext' : r.Successor (.singleton x) a next') : next.isEmpty = next'.isEmpty ∧
      (next.isEmpty = false → StandsAlone r found next next') := by
  have hmem : ∀ j, j ∈ next' ↔ next.isEmpty = false ∧ StandsFor r found j next := by
    intro j
    simp only [hnext' j, OrderedSet.mem_singleton, exists_eq_left, h.follows_iff hx ha hnext]
  obtain ⟨k, -, hk⟩ := hx
  obtain ⟨other, hother, hnamed⟩ := h.targets k s hk a ha
  obtain rfl := hnext.unique hother
  rcases hnamed with ⟨hempty, -⟩ | ⟨hne, m, hm, -⟩
  · have hempty' : next'.isEmpty = true := by
      refine OrderedSet.isEmpty_eq_true_iff.2 fun j hj => ?_
      rw [hempty] at hmem
      cases ((hmem j).1 hj).1
    rw [hempty, hempty']
    exact ⟨rfl, fun hne => by cases hne⟩
  · obtain ⟨z, -, hz⟩ := h.exists_standsFor hm
    have hnext' : next' = .singleton z := by
      refine OrderedSet.ext fun j => (hmem j).trans ?_
      rw [OrderedSet.mem_singleton]
      constructor
      · rintro ⟨-, hj⟩
        exact (h.standsFor_unique hj hz).1 rfl
      · rintro rfl
        exact ⟨hne, hz⟩
    rw [hnext', hne]
    exact ⟨rfl, fun _ => ⟨z, hz, rfl⟩⟩

theorem any_isFinal_singleton (h : Determinized t r found) (hx : StandsFor r found x s) :
    s.any t.isFinal = (OrderedSet.singleton x).any r.isFinal := by
  rw [Bool.eq_iff_iff, OrderedSet.any_eq_true_iff, OrderedSet.any_eq_true_iff]
  simp only [isFinal, decide_eq_true_eq, OrderedSet.mem_singleton, exists_eq_left,
    h.mem_finals_iff_of_standsFor hx]

/-- Sets and their states are matched. -/
theorem mirrors (h : Determinized t r found) (hv : t.Valid) (hm : r.marker = t.marker) :
    Mirrors t r (StandsAlone r found) where
  symbols_eq := h.symbols_eq
  marker_eq := hm
  initial := by
    obtain ⟨x, -, hinitial, hstands⟩ := h.exists_start
    exact ⟨x, hstands, hinitial⟩
  eq_iff := by
    rintro s s' x x' ⟨y, hy, rfl⟩ ⟨y', hy', rfl⟩
    rw [h.standsFor_unique hy hy', OrderedSet.singleton_inj]
  follow := by
    rintro s x a ⟨y, hy, rfl⟩ ha
    obtain ⟨k, hyk, hk⟩ := id hy
    obtain ⟨next, hok, hnext⟩ := hv.exists_follow (h.sets.lt s (List.mem_of_getElem? hk)) a
    have hlt : ∀ i ∈ OrderedSet.singleton y, i < r.size := by
      intro i hi
      rw [OrderedSet.mem_singleton.1 hi]
      exact (List.getElem?_eq_some_iff.1 hyk).1
    obtain ⟨next', hok', hnext'⟩ := h.valid.exists_follow hlt a
    exact ⟨next, next', hok, hok', h.matched_successor hy ha hnext hnext'⟩
  final_eq := by
    rintro s x ⟨y, hy, rfl⟩
    exact h.any_isFinal_singleton hy

end Determinized

/-! ## The second run -/

/-- The states that the second run finds stand for themselves. -/
theorem Members.get?_self {e e' : Exploration} {members : List (String × List String)}
    (h : (t.deterministic e).Members e'.found members) (he : t.Exploring e.found.length e)
    (hf : Matched (StandsAlone (t.deterministic e) e.found) e.found e'.found) {p : String}
    (hp : p ∈ (t.deterministic e).states) : (Dict.ofList members).get? p = some [p] := by
  obtain ⟨k, hk, rfl⟩ := mem_states_deterministic.1 hp
  have hs : e.found[k]? = some e.found[k] := List.getElem?_eq_getElem hk
  obtain ⟨x, hx, y, ⟨m, hy, hm⟩, rfl⟩ := forall₂_getElem?_left hf hs
  obtain rfl := he.sets.index_unique hm hs
  refine h.get?_iff.2 ⟨m, _, rfl, hx, ?_⟩
  exact mapM_eq_ok_iff.2 (.cons (entry_eq_ok_iff.2 hy) .nil)

/-- Made from its own result, the deterministic table of a table that makes sense, with states and
without moves without reading, is that result: the states and their order, the columns, the marker,
all rows that are stored and the marks are the same, and each state stands for itself alone. -/
theorem determinize_fixpoint {t : Table} (hv : t.validate = .ok ()) (hne : t.states ≠ [])
    (hm : t.hasEpsilonMoves = false) :
    ∃ d d', t.determinize = .ok d ∧ d.table.determinize = .ok d' ∧ d'.table = d.table ∧
      d'.subsets.entries = d.table.states.map fun name => (name, [name]) := by
  have hvalid := validate_eq_ok_iff.1 hv
  obtain ⟨e, members, hok, he, -, hd⟩ :=
    hvalid.exists_exploration hne (hvalid.hasEpsilonMoves_eq_false_iff.1 hm)
  have hdet := he.determinized
  obtain ⟨e', members', hok', he', hmembers, hd'⟩ :=
    hdet.valid.exists_exploration hdet.states_ne hdet.targets_marker
  have hmirrors := hdet.mirrors hvalid rfl
  obtain ⟨hmatched, hrows⟩ := hmirrors.matched hok hok'
  have htable := hmirrors.deterministic_eq he he' hmatched hrows
  have hkeys : (Dict.ofList members').keys = (t.deterministic e).states :=
    hmembers.keys_ofList.trans (congrArg Table.states htable)
  refine ⟨_, _, hd, hd', htable, ?_⟩
  rw [← hkeys]
  exact Dict.entries_eq_map fun p hp => hmembers.get?_self he hmatched (hkeys ▸ hp)

/-- A ring of more states than there are letters, where the names of the sets are in another order
than that in which they are found. -/
def ring : Table :=
  (((ofStates ((List.range 30).map stateName) ["a"] usualMarker).store
    ((List.range 30).map fun i => ⟨stateName i, "a", [stateName ((i + 1) % 30)]⟩)).markStart 7
    ).markFinal 0

theorem determinize_fixpoint_ring : ∃ d d', ring.determinize = .ok d ∧
    d.table.determinize = .ok d' ∧ d'.table = d.table ∧
    d'.subsets.entries = d.table.states.map fun name => (name, [name]) := by
  have hvalid : ring.Valid := by decide +kernel
  exact determinize_fixpoint (validate_eq_ok_iff.2 hvalid) (by decide) (by decide +kernel)

end Acceptor.Table
