/-
The moves of a table between the positions of its states. Main statements: the positions that the
entries of a state name are found unless an entry names no state (`findsUnless_targetIndices`),
those that follow a state of a valid table are found (`Valid.finds_targetIndices`), and storing
declared entries keeps a table valid (`Valid.store`).
-/
import Acceptor.Proofs.Arrows
import Acceptor.Proofs.Dict
import Acceptor.Proofs.Outcome
import Acceptor.Table.Cells
import Acceptor.Table.Validity

namespace Acceptor

/-! ## Sets that are found -/

/-- A set is found, whose members are those with a property. -/
def Finds (x : Except Error IndexSet) (Q : Nat → Prop) : Prop :=
  ∃ s, x = .ok s ∧ ∀ j, j ∈ s ↔ Q j

theorem Finds.congr {x : Except Error IndexSet} {Q R : Nat → Prop} (h : Finds x Q)
    (hQR : ∀ j, Q j ↔ R j) : Finds x R := by
  obtain ⟨s, hs, hmem⟩ := h
  exact ⟨s, hs, fun j => (hmem j).trans (hQR j)⟩

theorem Finds.mem_iff {x : Except Error IndexSet} {Q : Nat → Prop} {s : IndexSet} (h : Finds x Q)
    (hs : x = .ok s) (j : Nat) : j ∈ s ↔ Q j := by
  obtain ⟨r, hr, hmem⟩ := h
  cases hr.symm.trans hs
  exact hmem j

/-- Sets with one property are the same. -/
theorem Finds.unique {x y : Except Error IndexSet} {Q : Nat → Prop} (hx : Finds x Q)
    (hy : Finds y Q) : x = y := by
  obtain ⟨r, rfl, hr⟩ := hx
  obtain ⟨s, rfl, hs⟩ := hy
  rw [OrderedSet.ext fun j => (hr j).trans (hs j).symm]

/-- The union of sets that are found. -/
theorem finds_gather {α : Type} {find : α → Except Error IndexSet} {xs : List α}
    {Q : α → Nat → Prop} (h : ∀ x ∈ xs, Finds (find x) (Q x)) :
    Finds (IndexSet.gather find xs) fun j => ∃ x ∈ xs, Q x j := by
  obtain ⟨s, hs⟩ := IndexSet.exists_gather fun x hx => (h x hx).imp fun r hr => hr.1
  refine ⟨s, hs, fun j => ?_⟩
  rw [IndexSet.mem_of_gather hs]
  refine exists_congr fun x => and_congr_right fun hx => ?_
  obtain ⟨r, hr, hmem⟩ := h x hx
  rw [← hmem]
  exact ⟨fun ⟨r', hr', hj⟩ => by cases hr.symm.trans hr'; exact hj, fun hj => ⟨r, hr, hj⟩⟩

/-- All sets of a union that is found are found. -/
theorem IndexSet.forall_of_gather {α : Type} {find : α → Except Error IndexSet} {xs : List α}
    {s : IndexSet} (h : gather find xs = .ok s) : ∀ x ∈ xs, ∃ r, find x = .ok r := by
  induction xs generalizing s with
  | nil => exact List.forall_mem_nil _
  | cons x xs ih =>
    obtain ⟨r, rest, hr, hrest, -⟩ := gather_cons_eq_ok_iff.1 h
    exact List.forall_mem_cons.2 ⟨⟨r, hr⟩, ih hrest⟩

/-- A union fails only where one of its sets does. -/
theorem IndexSet.exists_of_gather_eq_error {α : Type} {find : α → Except Error IndexSet}
    {xs : List α} {e : Error} (h : gather find xs = .error e) : ∃ x ∈ xs, find x = .error e := by
  induction xs with
  | nil => cases h
  | cons x xs ih =>
    rcases bind_eq_error_iff.1 h with hx | ⟨r, -, h⟩
    · exact ⟨x, List.mem_cons_self, hx⟩
    · rcases bind_eq_error_iff.1 h with hrest | ⟨rest, -, h⟩
      · obtain ⟨y, hy, he⟩ := ih hrest
        exact ⟨y, List.mem_cons_of_mem x hy, he⟩
      · cases h

theorem finds_bind {α : Type} {x : Except Error α} {a : α} {f : α → Except Error IndexSet}
    {Q : Nat → Prop} (hx : x = .ok a) (h : Finds (f a) Q) : Finds (x >>= f) Q := by
  rw [hx]
  exact h

/-- A set is found unless something is wrong, and then a name that no state has is met. -/
def FindsUnless (x : Except Error IndexSet) (P : Prop) (Q : Nat → Prop) : Prop :=
  ¬ P ∧ Finds x Q ∨ P ∧ ∃ name, x = .error (.unknownState name)

theorem FindsUnless.finds {x : Except Error IndexSet} {P : Prop} {Q : Nat → Prop}
    (h : FindsUnless x P Q) (hP : ¬ P) : Finds x Q :=
  h.elim And.right fun hwrong => absurd hwrong.1 hP

/-- Where a set is found, nothing is wrong. -/
theorem FindsUnless.of_eq_ok {x : Except Error IndexSet} {P : Prop} {Q : Nat → Prop} {s : IndexSet}
    (h : FindsUnless x P Q) (hs : x = .ok s) : ¬ P ∧ ∀ j, j ∈ s ↔ Q j := by
  rcases h with ⟨hP, hfinds⟩ | ⟨-, name, he⟩
  · exact ⟨hP, hfinds.mem_iff hs⟩
  · cases he.symm.trans hs

namespace Table

variable {t : Table} {i j : Nat} {state symbol target : String}

/-! ## Moves -/

/-- A state is stored to follow another in a column, both given by position. -/
def Follows (t : Table) (i : Nat) (symbol : String) (j : Nat) : Prop :=
  ∃ p q, t.states[i]? = some p ∧ q ∈ t.targets p symbol ∧ t.states[j]? = some q

/-- A state follows another in a column other than the marker that reads a character. -/
def Reads (t : Table) (i : Nat) (c : Char) (j : Nat) : Prop :=
  ∃ symbol ∈ t.symbols, ∃ l, Label.ofText symbol = .ok l ∧ l.reads c = true ∧ t.Follows i symbol j

/-- The moves of a table: without reading in the column of the marker, and by reading a character
in a column that reads it. -/
def arrows (t : Table) : Arrows := fun i u j =>
  u = [] ∧ t.Follows i t.marker j ∨ ∃ c, u = [c] ∧ t.Reads i c j

/-- The words that lead from an initial state to a final one. -/
def language (t : Table) : Language Char :=
  {w | ∃ i j, i ∈ t.initial ∧ j ∈ t.finals ∧ t.arrows.Path i w j}

theorem slow_arrows : t.arrows.Slow := by
  rintro i u j (⟨hu, -⟩ | ⟨c, hu, -⟩)
  · exact .inl hu
  · exact .inr ⟨c, hu⟩

theorem arrows_nil_iff : t.arrows i [] j ↔ t.Follows i t.marker j := by
  simp [arrows]

theorem arrows_singleton_iff {c : Char} : t.arrows i [c] j ↔ t.Reads i c j := by
  simp [arrows]

theorem Follows.lt (h : t.Follows i symbol j) : i < t.size ∧ j < t.size := by
  obtain ⟨p, q, hp, -, hq⟩ := h
  exact ⟨(List.getElem?_eq_some_iff.1 hp).1, (List.getElem?_eq_some_iff.1 hq).1⟩

theorem Reads.lt {char : Char} (h : t.Reads i char j) : i < t.size ∧ j < t.size := by
  obtain ⟨a, -, l, -, -, hf⟩ := h
  exact hf.lt

/-! ## What an entry names -/

/-- An entry of a state in a column names another state: the first one that has the name. -/
def Enters (t : Table) (i : Nat) (symbol : String) (j : Nat) : Prop :=
  ∃ p q, t.states[i]? = some p ∧ q ∈ t.targets p symbol ∧ t.index? q = some j

/-- An entry of a state in a column names no state. -/
def Misnames (t : Table) (i : Nat) (symbol : String) : Prop :=
  ∃ p q, t.states[i]? = some p ∧ q ∈ t.targets p symbol ∧ q ∉ t.states

theorem Enters.lt (h : t.Enters i symbol j) : i < t.size ∧ j < t.size := by
  obtain ⟨p, q, hp, -, hq⟩ := h
  exact ⟨(List.getElem?_eq_some_iff.1 hp).1,
    (List.getElem?_eq_some_iff.1 (index?_eq_some_iff.1 hq).1).1⟩

theorem Misnames.lt (h : t.Misnames i symbol) : i < t.size := by
  obtain ⟨p, -, hp, -⟩ := h
  exact (List.getElem?_eq_some_iff.1 hp).1

theorem index_eq_ok_iff : t.index state = .ok i ↔ t.index? state = some i := by
  rw [index]
  cases t.index? state <;> simp

theorem index_eq_error_iff {e : Error} :
    t.index state = .error e ↔ state ∉ t.states ∧ e = .unknownState state := by
  rw [← index?_eq_none_iff, index]
  cases t.index? state <;> simp [eq_comm]

theorem targetIndices_eq {p : String} (hp : t.states[i]? = some p) (symbol : String) :
    t.targetIndices i symbol = ((t.targets p symbol).mapM t.index).map .ofList := by
  unfold targetIndices
  rw [hp]

/-- The entries of a state are not found only because of one that names no state. -/
theorem exists_of_targetIndices_eq_error {e : Error} (hi : i < t.size)
    (h : t.targetIndices i symbol = .error e) :
    ∃ p q, t.states[i]? = some p ∧ q ∈ t.targets p symbol ∧ q ∉ t.states ∧ e = .unknownState q := by
  obtain ⟨p, hp⟩ : ∃ p, t.states[i]? = some p := ⟨_, List.getElem?_eq_getElem hi⟩
  rw [targetIndices_eq hp, map_eq_error_iff] at h
  obtain ⟨q, hq, he⟩ := exists_of_mapM_eq_error h
  exact ⟨p, q, hp, hq, index_eq_error_iff.1 he⟩

/-- The positions that the entries of a state name are found, unless one of them names no state. -/
theorem findsUnless_targetIndices (hi : i < t.size) (symbol : String) :
    FindsUnless (t.targetIndices i symbol) (t.Misnames i symbol) (t.Enters i symbol) := by
  cases hs : t.targetIndices i symbol with
  | error e =>
    obtain ⟨p, q, hp, hq, hmissing, rfl⟩ := exists_of_targetIndices_eq_error hi hs
    exact .inr ⟨⟨p, q, hp, hq, hmissing⟩, q, rfl⟩
  | ok s =>
    obtain ⟨p, hp⟩ : ∃ p, t.states[i]? = some p := ⟨_, List.getElem?_eq_getElem hi⟩
    rw [targetIndices_eq hp, map_eq_ok_iff] at hs
    obtain ⟨js, hjs, rfl⟩ := hs
    have hall := mapM_eq_ok_iff.1 hjs
    refine .inl ⟨?_, .ofList js, rfl, fun j => ?_⟩
    · rintro ⟨p', q, hp', hq, hmissing⟩
      cases hp.symm.trans hp'
      obtain ⟨j, -, hj⟩ := forall₂_mem_left hall hq
      rw [index_eq_ok_iff, index?_eq_none_iff.2 hmissing] at hj
      cases hj
    · rw [OrderedSet.mem_ofList]
      constructor
      · intro hj
        obtain ⟨q, hq, hqj⟩ := forall₂_mem_right hall hj
        exact ⟨p, q, hp, hq, index_eq_ok_iff.1 hqj⟩
      · rintro ⟨p', q, hp', hq, hqj⟩
        cases hp.symm.trans hp'
        obtain ⟨k, hk, hqk⟩ := forall₂_mem_left hall hq
        cases (index_eq_ok_iff.1 hqk).symm.trans hqj
        exact hk

/-! ## What a valid table stores -/

theorem mem_targets_iff : target ∈ t.targets state symbol ↔
    ∃ row ts, t.moves.get? state = some row ∧ row.get? symbol = some ts ∧ target ∈ ts := by
  unfold targets
  cases t.moves.get? state with
  | none => simp
  | some row => cases hrow : row.get? symbol <;> simp [hrow]

/-- Whatever is stored is declared. -/
theorem Valid.of_mem_targets (h : t.Valid) (hm : target ∈ t.targets state symbol) :
    state ∈ t.states ∧ symbol ∈ t.alphabet ∧ target ∈ t.states := by
  obtain ⟨row, ts, hrow, hts, hm⟩ := mem_targets_iff.1 hm
  have hentry : (state, row) ∈ t.moves.entries := Dict.mem_entries_iff.2 hrow
  have hcolumn : (symbol, ts) ∈ row.entries := Dict.mem_entries_iff.2 hts
  exact ⟨h.rows _ hentry, h.columns _ hentry _ hcolumn, h.targets _ hentry _ hcolumn _ hm⟩

theorem mem_symbols_iff : symbol ∈ t.symbols ↔ symbol ∈ t.alphabet ∧ symbol ≠ t.marker := by
  simp [symbols, isMarker]

theorem marker_not_mem_symbols (t : Table) : t.marker ∉ t.symbols :=
  fun h => (mem_symbols_iff.1 h).2 rfl

/-- Nothing is stored in the column of a marker that is not declared. -/
theorem Valid.targets_marker (h : t.Valid) (hm : t.marker ∉ t.alphabet) (state : String) :
    t.targets state t.marker = [] :=
  List.eq_nil_iff_forall_not_mem.2 fun _ hq => hm (h.of_mem_targets hq).2.1

/-- No state moves without reading where nothing is stored for the marker. -/
theorem Valid.firstEpsilonState?_eq_none_iff (h : t.Valid) :
    t.firstEpsilonState? = none ↔ ∀ state, t.targets state t.marker = [] := by
  simp only [firstEpsilonState?, List.find?_eq_none, Bool.not_eq_true', Bool.not_eq_false,
    List.isEmpty_iff]
  refine ⟨fun hall state => ?_, fun hall state _ => hall state⟩
  refine List.eq_nil_iff_forall_not_mem.2 fun q hq => ?_
  rw [hall state (h.of_mem_targets hq).1] at hq
  cases hq

theorem Valid.hasEpsilonMoves_eq_false_iff (h : t.Valid) :
    t.hasEpsilonMoves = false ↔ ∀ state, t.targets state t.marker = [] := by
  rw [hasEpsilonMoves, Option.isSome_eq_false_iff, Option.isNone_iff_eq_none,
    h.firstEpsilonState?_eq_none_iff]

theorem getElem?_states_inj (h : t.states.Nodup) {p : String} (hi : t.states[i]? = some p)
    (hj : t.states[j]? = some p) : i = j :=
  (List.getElem?_inj (List.getElem?_eq_some_iff.1 hi).1 h).1 (hi.trans hj.symm)

theorem Valid.index?_eq_some_iff (h : t.Valid) :
    t.index? state = some i ↔ t.states[i]? = some state := by
  rw [Table.index?_eq_some_iff, and_iff_left_iff_imp]
  intro hi k hk hki
  exact Nat.ne_of_lt hk (getElem?_states_inj h.nodup hki hi)

/-- The entries of a valid table name the states that follow. -/
theorem Valid.enters_iff (h : t.Valid) : t.Enters i symbol j ↔ t.Follows i symbol j := by
  simp only [Enters, Follows, h.index?_eq_some_iff]

theorem Valid.not_misnames (h : t.Valid) (i : Nat) (symbol : String) : ¬ t.Misnames i symbol := by
  rintro ⟨p, q, -, hq, hmissing⟩
  exact hmissing (h.of_mem_targets hq).2.2

/-- The positions of the states that follow are found. -/
theorem Valid.finds_targetIndices (h : t.Valid) (hi : i < t.size) (symbol : String) :
    Finds (t.targetIndices i symbol) (t.Follows i symbol) :=
  ((findsUnless_targetIndices hi symbol).finds (h.not_misnames i symbol)).congr
    fun _ => h.enters_iff

/-- The names that are stored for a state of a valid table are those of the states that follow. -/
theorem Valid.mem_targets_iff_follows (h : t.Valid) (hp : t.states[i]? = some state) :
    target ∈ t.targets state symbol ↔ ∃ j, t.Follows i symbol j ∧ t.states[j]? = some target := by
  constructor
  · intro hq
    obtain ⟨j, hj⟩ := List.mem_iff_getElem?.1 (h.of_mem_targets hq).2.2
    exact ⟨j, ⟨state, target, hp, hq, hj⟩, hj⟩
  · rintro ⟨j, ⟨p, q, hp', hq, hqj⟩, hj⟩
    cases hp.symm.trans hp'
    cases hj.symm.trans hqj
    exact hq

theorem Valid.targets_eq_nil_iff (h : t.Valid) (hp : t.states[i]? = some state) :
    t.targets state symbol = [] ↔ ∀ j, ¬ t.Follows i symbol j := by
  constructor
  · rintro hnil j ⟨p, q, hp', hq, -⟩
    cases hp.symm.trans hp'
    rw [hnil] at hq
    cases hq
  · intro hnone
    refine List.eq_nil_iff_forall_not_mem.2 fun q hq => ?_
    obtain ⟨j, hf, -⟩ := (h.mem_targets_iff_follows hp).1 hq
    exact hnone j hf

/-! ## Storing entries -/

/-- Storing a declared entry keeps a table valid. -/
theorem Valid.setTargets {ts : List String} (h : t.Valid) (hs : state ∈ t.states)
    (hc : symbol ∈ t.alphabet) (ht : ∀ q ∈ ts, q ∈ t.states) :
    (t.setTargets state symbol ts).Valid := by
  -- the row that is stored again holds the entry and what was there before
  have hrow : ∀ row ∈ (t.setTargets state symbol ts).moves.entries, row.1 ∈ t.states ∧
      ∀ column ∈ row.2.entries, column.1 ∈ t.alphabet ∧ ∀ q ∈ column.2, q ∈ t.states := by
    intro row hrow
    rcases Dict.of_mem_entries_insert hrow with rfl | hrow
    · refine ⟨hs, fun column hcolumn => ?_⟩
      rcases Dict.of_mem_entries_insert hcolumn with rfl | hcolumn
      · exact ⟨hc, ht⟩
      · cases hold : t.moves.get? state with
        | none =>
          rw [hold] at hcolumn
          cases hcolumn
        | some old =>
          rw [hold] at hcolumn
          have hentry := Dict.mem_entries_iff.2 hold
          exact ⟨h.columns _ hentry _ hcolumn, h.targets _ hentry _ hcolumn⟩
    · exact ⟨h.rows _ hrow, fun column hcolumn =>
        ⟨h.columns _ hrow _ hcolumn, h.targets _ hrow _ hcolumn⟩⟩
  exact ⟨h.nodup, h.starts_lt, h.finals_lt, fun row hr => (hrow row hr).1,
    fun row hr column hcolumn => ((hrow row hr).2 column hcolumn).1,
    fun row hr column hcolumn => ((hrow row hr).2 column hcolumn).2⟩

/-- The entries to store are declared. -/
def Declared (t : Table) (cells : List Cell) : Prop :=
  ∀ c ∈ cells, c.state ∈ t.states ∧ c.symbol ∈ t.alphabet ∧ ∀ q ∈ c.targets, q ∈ t.states

/-- Storing declared entries keeps a table valid. -/
theorem Valid.store {cells : List Cell} (h : t.Valid) (hcells : t.Declared cells) :
    (t.store cells).Valid := by
  induction cells generalizing t with
  | nil => exact h
  | cons c rest ih =>
    obtain ⟨⟨hs, hc, ht⟩, hrest⟩ := List.forall_mem_cons.1 hcells
    exact ih (h.setTargets hs hc ht) hrest

/-- Storing entries changes nothing else. -/
theorem store_eq (t : Table) (cells : List Cell) :
    t.store cells = { t with moves := (t.store cells).moves } := by
  induction cells generalizing t with
  | nil => rfl
  | cons c rest ih => exact ih (t.setTargets c.state c.symbol c.targets)

@[simp] theorem states_store (t : Table) (cells : List Cell) : (t.store cells).states = t.states :=
  (congrArg Table.states (store_eq t cells)).trans rfl

@[simp] theorem alphabet_store (t : Table) (cells : List Cell) :
    (t.store cells).alphabet = t.alphabet :=
  (congrArg Table.alphabet (store_eq t cells)).trans rfl

@[simp] theorem marker_store (t : Table) (cells : List Cell) : (t.store cells).marker = t.marker :=
  (congrArg Table.marker (store_eq t cells)).trans rfl

@[simp] theorem starts_store (t : Table) (cells : List Cell) : (t.store cells).starts = t.starts :=
  (congrArg Table.starts (store_eq t cells)).trans rfl

@[simp] theorem finals_store (t : Table) (cells : List Cell) : (t.store cells).finals = t.finals :=
  (congrArg Table.finals (store_eq t cells)).trans rfl

@[simp] theorem symbols_store (t : Table) (cells : List Cell) :
    (t.store cells).symbols = t.symbols := by
  simp only [symbols, isMarker, alphabet_store, marker_store]

theorem store_append (t : Table) (xs ys : List Cell) :
    t.store (xs ++ ys) = (t.store xs).store ys :=
  List.foldl_append

/-- The last of some rows' elements with a property is looked for in the one row that has any. -/
theorem find?_reverse_flatten {α : Type} {f : α → Bool} {rows : List (List α)} {row : List α}
    (hrow : row ∈ rows) (hother : ∀ row' ∈ rows, row' ≠ row → ∀ x ∈ row', ¬ f x = true) :
    rows.flatten.reverse.find? f = row.reverse.find? f := by
  have hnone : ∀ xs : List α, (∀ x ∈ xs, ¬ f x = true) → xs.reverse.find? f = none :=
    fun xs h => List.find?_eq_none.2 fun x hx => h x (List.mem_reverse.1 hx)
  induction rows with
  | nil => cases hrow
  | cons first rest ih =>
    obtain ⟨hfirst, hrest⟩ := List.forall_mem_cons.1 hother
    rw [List.flatten_cons, List.reverse_append, List.find?_append]
    by_cases hmem : row ∈ rest
    · rw [ih hmem hrest]
      by_cases heq : first = row
      · rw [heq, Option.or_self]
      · rw [hnone first (hfirst heq), Option.or_none]
    · obtain rfl : row = first := (List.mem_cons.1 hrow).resolve_right hmem
      rw [hnone rest.flatten, Option.none_or]
      intro x hx
      obtain ⟨row', hrow', hx⟩ := List.mem_flatten.1 hx
      exact hrest row' hrow' (fun he => hmem (he ▸ hrow')) x hx

/-- What is found for a state is what its own row of entries holds. -/
theorem targets_store_flatten {rows : List (List Cell)} {row : List Cell} (hrow : row ∈ rows)
    (hother : ∀ row' ∈ rows, row' ≠ row → ∀ c ∈ row', c.state ≠ state) :
    (t.store rows.flatten).targets state symbol = (t.store row).targets state symbol := by
  rw [targets_store, targets_store, find?_reverse_flatten hrow]
  intro row' hrow' hne c hc hmatch
  exact hother row' hrow' hne c hc (of_decide_eq_true hmatch).1.symm

/-- What follows a state in a column is what a relation says, if the names stored there are those of
what it says. -/
theorem follows_iff_of_mem_targets {F : Nat → Prop} (hnodup : t.states.Nodup)
    (hlt : ∀ j, F j → i < t.size ∧ j < t.size)
    (htargets : ∀ p q, t.states[i]? = some p →
      (q ∈ t.targets p symbol ↔ ∃ j, F j ∧ t.states[j]? = some q)) :
    t.Follows i symbol j ↔ F j := by
  constructor
  · rintro ⟨p, q, hp, hq, hqj⟩
    obtain ⟨j', hF, hqj'⟩ := (htargets p q hp).1 hq
    rwa [getElem?_states_inj hnodup hqj hqj']
  · intro hF
    obtain ⟨hi, hj⟩ := hlt j hF
    have hp : t.states[i]? = some t.states[i] := List.getElem?_eq_getElem hi
    have hq : t.states[j]? = some t.states[j] := List.getElem?_eq_getElem hj
    exact ⟨_, _, hp, (htargets _ _ hp).2 ⟨j, hF, hq⟩, hq⟩

/-- What is found for a state after entries are stored in a table without moves is what a relation
makes follow it, if each of its entries holds that and there is one wherever something follows. -/
theorem mem_targets_store_iff {F : String → Nat → Prop} {cells : List Cell}
    (hempty : t.moves = .empty)
    (hcells : ∀ c ∈ cells, c.state = state →
      ∀ q, q ∈ c.targets ↔ ∃ j, F c.symbol j ∧ t.states[j]? = some q)
    (hall : ∀ a j, F a j → ∃ c ∈ cells, c.state = state ∧ c.symbol = a) :
    target ∈ (t.store cells).targets state symbol ↔
      ∃ j, F symbol j ∧ t.states[j]? = some target := by
  have hnone : t.targets state symbol = [] := by simp [targets, hempty]
  rw [targets_store, hnone]
  split
  · rename_i c hfind
    have hc : c ∈ cells := List.mem_reverse.1 (List.mem_of_find?_eq_some hfind)
    obtain ⟨hstate, rfl⟩ : state = c.state ∧ symbol = c.symbol := by
      simpa using List.find?_some hfind
    exact hcells c hc hstate.symm target
  · rename_i hfind
    rw [List.find?_eq_none] at hfind
    constructor
    · exact fun h => absurd h List.not_mem_nil
    · rintro ⟨j, hF, -⟩
      obtain ⟨c, hc, rfl, rfl⟩ := hall _ j hF
      exact absurd (decide_eq_true ⟨rfl, rfl⟩) (hfind c (List.mem_reverse.2 hc))

/-- Each entry holds the states that a relation makes follow its state in its column. -/
def Describes (t : Table) (F : Nat → String → Nat → Prop) (cells : List Cell) : Prop :=
  ∀ c ∈ cells, ∃ i, t.states[i]? = some c.state ∧
    ∀ q, q ∈ c.targets ↔ ∃ j, F i c.symbol j ∧ t.states[j]? = some q

/-- What follows after entries that describe a relation are stored in a table without moves is
what the relation says, if there is an entry wherever something follows. -/
theorem follows_store_iff {F : Nat → String → Nat → Prop} {cells : List Cell}
    (hnodup : t.states.Nodup) (hempty : t.moves = .empty) (hcells : t.Describes F cells)
    (hall : ∀ i a j, F i a j → j < t.size ∧
      ∃ c ∈ cells, t.states[i]? = some c.state ∧ c.symbol = a) :
    (t.store cells).Follows i symbol j ↔ F i symbol j := by
  refine follows_iff_of_mem_targets (by rwa [states_store]) (fun j hF => ?_) fun p q hp => ?_
  · obtain ⟨hj, c, -, hi, -⟩ := hall i symbol j hF
    rw [size, states_store]
    exact ⟨(List.getElem?_eq_some_iff.1 hi).1, hj⟩
  · rw [states_store] at hp ⊢
    refine mem_targets_store_iff (F := F i) hempty (fun c hc hstate => ?_) fun a j hF => ?_
    · obtain ⟨i', hi', htargets⟩ := hcells c hc
      rwa [getElem?_states_inj hnodup hp (hstate ▸ hi')]
    · obtain ⟨-, c, hc, hi, hsymbol⟩ := hall i a j hF
      exact ⟨c, hc, Option.some.inj (hi.symm.trans hp), hsymbol⟩

/-- Entries that describe a relation, in columns of the table, are declared. -/
theorem Describes.declared {F : Nat → String → Nat → Prop} {cells : List Cell}
    (h : t.Describes F cells) (hsymbols : ∀ c ∈ cells, c.symbol ∈ t.alphabet) :
    t.Declared cells := by
  intro c hc
  obtain ⟨i, hi, htargets⟩ := h c hc
  refine ⟨List.mem_of_getElem? hi, hsymbols c hc, fun q hq => ?_⟩
  obtain ⟨j, -, hj⟩ := (htargets q).1 hq
  exact List.mem_of_getElem? hj

/-- The names that are found at some positions. -/
theorem mem_of_mapM_entry {xs ys : List String} {s : IndexSet}
    (h : s.toList.mapM (entry xs) = .ok ys) {q : String} : q ∈ ys ↔ ∃ i ∈ s, xs[i]? = some q := by
  have hall := mapM_eq_ok_iff.1 h
  constructor
  · intro hq
    obtain ⟨i, hi, he⟩ := forall₂_mem_right hall hq
    exact ⟨i, hi, entry_eq_ok_iff.1 he⟩
  · rintro ⟨i, hi, he⟩
    obtain ⟨q', hq', he'⟩ := forall₂_mem_left hall hi
    cases he.symm.trans (entry_eq_ok_iff.1 he')
    exact hq'

/-- The names at some positions are found. -/
theorem exists_mapM_entry {xs : List String} {s : IndexSet} (h : ∀ i ∈ s, i < xs.length) :
    ∃ ys, s.toList.mapM (entry xs) = .ok ys ∧ ∀ q, q ∈ ys ↔ ∃ i ∈ s, xs[i]? = some q := by
  have hentry : ∀ i ∈ s.toList, ∃ q, entry xs i = .ok q :=
    fun i hi => ⟨_, entry_eq_ok_iff.2 (List.getElem?_eq_getElem (h i hi))⟩
  obtain ⟨ys, hys⟩ := exists_mapM hentry
  exact ⟨ys, hys, fun q => mem_of_mapM_entry hys⟩

end Table

end Acceptor
