/-
Tables that differ in the order and the names of their states only. A bijection of the positions of
the states takes each set that the subset construction finds in one table to the set that it finds
in the other at the same place (`Relabelling.mirrors`), so both runs name their sets alike. Main
statement: the deterministic tables are the same, and equal names stand for sets that the bijection
takes to each other (`determinize_relabelled`).
-/
import Acceptor.Proofs.Table.Lockstep
import Acceptor.Proofs.Table.Trails

namespace Acceptor.Table

variable {t u : Table} {f : Fin t.size ≃ Fin u.size} {s s' x x' : IndexSet} {a : String}

/-! ## Images of sets -/

/-- A set of positions is the image of another under a bijection. -/
def IsImage (f : Fin t.size ≃ Fin u.size) (s x : IndexSet) : Prop :=
  ∀ k, k ∈ x ↔ ∃ i : Fin t.size, (i : Nat) ∈ s ∧ (f i : Nat) = k

theorem isImage_iff : IsImage f s x ↔
    (∀ k ∈ x.toList, ∃ i : Fin t.size, (i : Nat) ∈ s ∧ (f i : Nat) = k) ∧
      ∀ i : Fin t.size, (i : Nat) ∈ s → (f i : Nat) ∈ x := by
  constructor
  · exact fun h => ⟨fun k => (h k).1, fun i hi => (h (f i)).2 ⟨i, hi, rfl⟩⟩
  · rintro ⟨hback, hthere⟩ k
    refine ⟨hback k, ?_⟩
    rintro ⟨i, hi, rfl⟩
    exact hthere i hi

instance : Decidable (IsImage f s x) :=
  decidable_of_iff' _ isImage_iff

theorem IsImage.apply_mem_iff (h : IsImage f s x) (i : Fin t.size) :
    (f i : Nat) ∈ x ↔ (i : Nat) ∈ s := by
  rw [h]
  constructor
  · rintro ⟨j, hj, he⟩
    rwa [← f.injective (Fin.ext he)]
  · exact fun hi => ⟨i, hi, rfl⟩

/-- A set of states of one table and its image among the states of another. -/
structure Corresponds (f : Fin t.size ≃ Fin u.size) (s x : IndexSet) : Prop where
  lt : ∀ i ∈ s, i < t.size
  image : IsImage f s x

namespace Corresponds

/-- What some member of a set has, some member of its image has. -/
theorem exists_iff (h : Corresponds f s x) {P Q : Nat → Prop}
    (hPQ : ∀ i : Fin t.size, P i ↔ Q (f i)) : (∃ i ∈ s, P i) ↔ ∃ k ∈ x, Q k := by
  constructor
  · rintro ⟨i, hi, hP⟩
    have hP' := (hPQ ⟨i, h.lt i hi⟩).1 hP
    exact ⟨_, (h.image.apply_mem_iff ⟨i, h.lt i hi⟩).2 hi, hP'⟩
  · rintro ⟨k, hk, hQ⟩
    obtain ⟨i, hi, rfl⟩ := (h.image k).1 hk
    exact ⟨i, hi, (hPQ i).2 hQ⟩

theorem isEmpty_eq (h : Corresponds f s x) : s.isEmpty = x.isEmpty := by
  have hsome : s.isEmpty = false ↔ x.isEmpty = false := by
    rw [OrderedSet.isEmpty_eq_false_iff, OrderedSet.isEmpty_eq_false_iff]
    simpa using h.exists_iff (P := fun _ => True) (Q := fun _ => True) fun _ => Iff.rfl
  rw [Bool.eq_iff_iff, ← not_iff_not, Bool.not_eq_true, Bool.not_eq_true]
  exact hsome

/-- A set has one image, and is that of one set. -/
theorem eq_iff (h : Corresponds f s x) (h' : Corresponds f s' x') : s = s' ↔ x = x' := by
  have hsub : ∀ {s s' x : IndexSet}, Corresponds f s x → Corresponds f s' x → ∀ i ∈ s, i ∈ s' := by
    intro s s' x h h' i hi
    exact (h'.image.apply_mem_iff ⟨i, h.lt i hi⟩).1 ((h.image.apply_mem_iff ⟨i, h.lt i hi⟩).2 hi)
  constructor
  · rintro rfl
    exact OrderedSet.ext fun k => (h.image k).trans (h'.image k).symm
  · rintro rfl
    exact OrderedSet.ext fun i => ⟨hsub h h' i, hsub h' h i⟩

end Corresponds

/-! ## The same states in another order -/

/-- Tables with the same columns and marker, whose states differ in their order and their names: a
bijection takes the start states, the final states and what follows each state in each column to
those of the other table. -/
structure Relabelling (t u : Table) (f : Fin t.size ≃ Fin u.size) : Prop where
  alphabet_eq : u.alphabet = t.alphabet
  marker_eq : u.marker = t.marker
  starts : IsImage f t.starts u.starts
  finals : IsImage f t.finals u.finals
  targets : ∀ i : Fin t.size, ∀ a ∈ t.symbols, ∀ next next', t.targetIndices i a = .ok next →
    u.targetIndices (f i) a = .ok next' → IsImage f next next'

namespace Relabelling

theorem symbols_eq (h : Relabelling t u f) : u.symbols = t.symbols := by
  have hmarker : u.isMarker = t.isMarker := by
    funext symbol
    rw [isMarker, isMarker, h.marker_eq]
  rw [symbols, symbols, h.alphabet_eq, hmarker]

theorem follows_iff (h : Relabelling t u f) (hv : t.Valid) (hu : u.Valid) (ha : a ∈ t.symbols)
    (i j : Fin t.size) : u.Follows (f i) a (f j) ↔ t.Follows i a j := by
  obtain ⟨next, hok, hnext⟩ := hv.finds_targetIndices i.2 a
  obtain ⟨next', hok', hnext'⟩ := hu.finds_targetIndices (f i).2 a
  rw [← hnext, ← hnext']
  exact (h.targets i a ha next next' hok hok').apply_mem_iff j

/-- What follows a set corresponds to what follows its image. -/
theorem successor (h : Relabelling t u f) (hv : t.Valid) (hu : u.Valid) (hs : Corresponds f s x)
    (ha : a ∈ t.symbols) {next next' : IndexSet} (hnext : t.Successor s a next)
    (hnext' : u.Successor x a next') : Corresponds f next next' where
  lt j hj := by
    obtain ⟨i, -, hf⟩ := (hnext j).1 hj
    exact hf.lt.2
  image := by
    have hstep : ∀ j : Fin t.size, (f j : Nat) ∈ next' ↔ (j : Nat) ∈ next := fun j =>
      (hnext' _).trans ((hs.exists_iff fun i => (h.follows_iff hv hu ha i j).symm).symm.trans
        (hnext _).symm)
    refine isImage_iff.2 ⟨fun k hk => ?_, fun j hj => (hstep j).2 hj⟩
    obtain ⟨k', -, hf⟩ := (hnext' k).1 hk
    refine ⟨f.symm ⟨k, hf.lt.2⟩, ?_, ?_⟩
    · rw [← hstep, f.apply_symm_apply]
      exact hk
    · rw [f.apply_symm_apply]

theorem corresponds_initial (h : Relabelling t u f) (hv : t.Valid)
    (hs : t.starts.isEmpty = false) : Corresponds f t.initial u.initial := by
  have hstarts : Corresponds f t.starts u.starts := ⟨hv.starts_lt, h.starts⟩
  have hs' : u.starts.isEmpty = false := hstarts.isEmpty_eq ▸ hs
  simpa [initial, hs, hs'] using hstarts

/-- Sets and their images are matched. -/
theorem mirrors (h : Relabelling t u f) (hv : t.Valid) (hu : u.Valid)
    (hs : t.starts.isEmpty = false) : Mirrors t u (Corresponds f) where
  symbols_eq := h.symbols_eq
  marker_eq := h.marker_eq
  initial := h.corresponds_initial hv hs
  eq_iff hR hR' := hR.eq_iff hR'
  follow := by
    intro s x a hR ha
    have hlt : ∀ k ∈ x, k < u.size := by
      intro k hk
      obtain ⟨i, -, rfl⟩ := (hR.image k).1 hk
      exact (f i).2
    obtain ⟨next, hok, hnext⟩ := hv.exists_follow hR.lt a
    obtain ⟨next', hok', hnext'⟩ := hu.exists_follow hlt a
    have hR' := h.successor hv hu hR ha hnext hnext'
    exact ⟨next, next', hok, hok', hR'.isEmpty_eq, fun _ => hR'⟩
  final_eq := by
    intro s x hR
    rw [Bool.eq_iff_iff, OrderedSet.any_eq_true_iff, OrderedSet.any_eq_true_iff]
    refine hR.exists_iff fun i => ?_
    rw [isFinal, isFinal, decide_eq_true_eq, decide_eq_true_eq, h.finals.apply_mem_iff]

end Relabelling

/-! ## The same deterministic table -/

/-- Some states of one table by name, and their images by name. -/
structure Renamed (f : Fin t.size ≃ Fin u.size) (names names' : List String) : Prop where
  declared : ∀ p ∈ names, p ∈ t.states
  image : ∀ q, q ∈ names' ↔ ∃ i, t.states.get i ∈ names ∧ u.states.get (f i) = q

/-- The names of a set and those of its image. -/
theorem Corresponds.renamed (h : Corresponds f s x) (hv : t.Valid) {names names' : List String}
    (hnames : t.namesAt s = .ok names) (hnames' : u.namesAt x = .ok names') :
    Renamed f names names' where
  declared _ hp := (sublist_of_namesAt hnames).mem hp
  image q := by
    have hget : ∀ i : Fin t.size, t.states.get i ∈ names ↔ (i : Nat) ∈ s := by
      intro i
      rw [hv.mem_iff_of_namesAt hnames]
      have hi : t.states[(i : Nat)]? = some (t.states.get i) := List.getElem?_eq_getElem i.2
      simp only [hi, Option.some.injEq, exists_eq_right']
    rw [mem_of_mapM_entry hnames']
    constructor
    · rintro ⟨k, hk, hq⟩
      obtain ⟨i, hi, rfl⟩ := (h.image k).1 hk
      obtain ⟨hlt, hq⟩ := List.getElem?_eq_some_iff.1 hq
      exact ⟨i, (hget i).2 hi, hq⟩
    · rintro ⟨i, hi, rfl⟩
      exact ⟨f i, (h.image.apply_mem_iff i).2 ((hget i).1 hi), List.getElem?_eq_getElem (f i).2⟩

/-- The subset construction does not depend on the order and the names of the states. Let two
tables make sense, with states, with a start state and without moves without reading, and let a
bijection of their positions make them differ in the order and the names of the states only. Then
their deterministic tables are the same, and under each name of a state the subset of the one table
corresponds to that of the other. -/
theorem determinize_relabelled {t u : Table} (f : Fin t.size ≃ Fin u.size)
    (hv : t.validate = .ok ()) (hu : u.validate = .ok ()) (hne : t.states ≠ [])
    (hm : t.hasEpsilonMoves = false) (hm' : u.hasEpsilonMoves = false)
    (hs : t.starts.isEmpty = false) (h : Relabelling t u f) :
    ∃ d d', t.determinize = .ok d ∧ u.determinize = .ok d' ∧ d'.table = d.table ∧
      ∀ name ∈ d.table.states, ∃ names names', d.subsets.get? name = some names ∧
        d'.subsets.get? name = some names' ∧ Renamed f names names' := by
  have hv := validate_eq_ok_iff.1 hv
  have hu := validate_eq_ok_iff.1 hu
  have hne' : u.states ≠ [] := by
    have hpos : 0 < t.size := List.length_pos_iff.2 hne
    exact List.ne_nil_of_length_pos (Nat.zero_lt_of_lt (f ⟨0, hpos⟩).2)
  obtain ⟨e, members, hok, he, hmembers, hd⟩ :=
    hv.exists_exploration hne (hv.hasEpsilonMoves_eq_false_iff.1 hm)
  obtain ⟨e', members', hok', he', hmembers', hd'⟩ :=
    hu.exists_exploration hne' (hu.hasEpsilonMoves_eq_false_iff.1 hm')
  have hmirrors := h.mirrors hv hu hs
  obtain ⟨hmatched, hrows⟩ := hmirrors.matched hok hok'
  refine ⟨_, _, hd, hd', hmirrors.deterministic_eq he he' hmatched hrows, fun name hname => ?_⟩
  obtain ⟨k, hk, rfl⟩ := mem_states_deterministic.1 hname
  have hs : e.found[k]? = some e.found[k] := List.getElem?_eq_getElem hk
  obtain ⟨x, hx, hR⟩ := forall₂_getElem?_left hmatched hs
  obtain ⟨names, hnames, -⟩ := exists_mapM_entry hR.lt
  obtain ⟨names', hnames', -⟩ := exists_mapM_entry (he'.sets.lt x (List.mem_of_getElem? hx))
  exact ⟨names, names', hmembers.get?_iff.2 ⟨k, _, rfl, hs, hnames⟩,
    hmembers'.get?_iff.2 ⟨k, x, rfl, hx, hnames'⟩, hR.renamed hv hnames hnames'⟩

/-- A table with two start states and some columns in which several states follow. -/
def upright : Table :=
  ((((ofStates ["p", "q", "r"] ["a", "b"] usualMarker).store
    [⟨"p", "a", ["q", "r"]⟩, ⟨"q", "b", ["p"]⟩, ⟨"r", "a", ["r"]⟩, ⟨"r", "b", ["p", "q"]⟩]
    ).markStart 0).markStart 2).markFinal 1

/-- The same table with its states turned and renamed, and what follows them in another order and
repeated. -/
def turned : Table :=
  ((((ofStates ["two", "three", "one"] ["a", "b"] usualMarker).store
    [⟨"one", "a", ["three", "two", "three"]⟩, ⟨"two", "b", ["one"]⟩, ⟨"three", "a", ["three"]⟩,
      ⟨"three", "b", ["two", "one"]⟩]).markStart 2).markStart 1).markFinal 0

/-- Where the states are turned to. -/
def turn : Fin upright.size ≃ Fin turned.size where
  toFun i := ⟨(i + 2) % 3, Nat.mod_lt _ (by decide)⟩
  invFun i := ⟨(i + 1) % 3, Nat.mod_lt _ (by decide)⟩
  left_inv := by decide
  right_inv := by decide

theorem determinize_relabelled_turned : ∃ d d', upright.determinize = .ok d ∧
    turned.determinize = .ok d' ∧ d'.table = d.table ∧ ∀ name ∈ d.table.states, ∃ names names',
      d.subsets.get? name = some names ∧ d'.subsets.get? name = some names' ∧
        Renamed turn names names' := by
  have hvalid : upright.Valid ∧ turned.Valid := by decide +kernel
  have himages : ∀ i : Fin upright.size, ∀ a ∈ upright.symbols,
      ∀ next ∈ (upright.targetIndices i a).toOption,
        ∀ next' ∈ (turned.targetIndices (turn i) a).toOption, IsImage turn next next' := by
    decide +kernel
  have hrelabelling : Relabelling upright turned turn := by
    refine ⟨rfl, rfl, by decide +kernel, by decide +kernel, fun i a ha next next' hok hok' => ?_⟩
    exact himages i a ha next (by rw [hok]; rfl) next' (by rw [hok']; rfl)
  exact determinize_relabelled turn (validate_eq_ok_iff.2 hvalid.1) (validate_eq_ok_iff.2 hvalid.2)
    (by decide) (by decide +kernel) (by decide +kernel) (by decide) hrelabelling

end Acceptor.Table
