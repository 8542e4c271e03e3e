/-
Running a table. Main statements: running a valid table whose columns are labels decides whether a
word leads from an initial state to a final one (`Valid.decides_accepts`, `accepts_iff_path`), and
tables with the same columns and the same words answer alike, also with a fault
(`Valid.accepts_eq`).
-/
import Acceptor.Proofs.Table.Closure
import Acceptor.Table.Acceptance

namespace Acceptor

/-- An answer is given, and it is whether something holds. -/
def Decides (x : Except Error Bool) (Q : Prop) : Prop :=
  ∃ b, x = .ok b ∧ (b = true ↔ Q)

theorem Decides.congr {x : Except Error Bool} {Q R : Prop} (h : Decides x Q) (hQR : Q ↔ R) :
    Decides x R := by
  obtain ⟨b, hb, hQ⟩ := h
  exact ⟨b, hb, hQ.trans hQR⟩

/-- Answers to one question are the same. -/
theorem Decides.unique {x y : Except Error Bool} {Q : Prop} (hx : Decides x Q) (hy : Decides y Q) :
    x = y := by
  obtain ⟨a, rfl, ha⟩ := hx
  obtain ⟨b, rfl, hb⟩ := hy
  rw [Bool.eq_iff_iff.2 (ha.trans hb.symm)]

namespace Table

variable {t : Table} {c : Closures} {labels : List (String × Label)} {i : Nat} {char : Char}

/-- The labels are those of the columns. -/
theorem mem_symbolLabels_iff (h : t.symbolLabels = .ok labels) {symbol : String} {l : Label} :
    (symbol, l) ∈ labels ↔ symbol ∈ t.symbols ∧ Label.ofText symbol = .ok l := by
  have hall := mapM_eq_ok_iff.1 h
  constructor
  · intro hm
    obtain ⟨s, hs, hsl⟩ := forall₂_mem_right hall hm
    obtain ⟨l', hl', he⟩ := map_eq_ok_iff.1 hsl
    cases he
    exact ⟨hs, hl'⟩
  · rintro ⟨hs, hl⟩
    obtain ⟨e, he, hse⟩ := forall₂_mem_left hall hs
    obtain ⟨l', hl', rfl⟩ := map_eq_ok_iff.1 hse
    cases hl.symm.trans hl'
    exact he

/-- The columns are labels where each of them is. -/
theorem exists_symbolLabels (h : ∀ symbol ∈ t.symbols, ∃ l, Label.ofText symbol = .ok l) :
    ∃ labels, t.symbolLabels = .ok labels := by
  refine exists_mapM fun symbol hs => ?_
  obtain ⟨l, hl⟩ := h symbol hs
  exact ⟨_, map_eq_ok_iff.2 ⟨l, hl, rfl⟩⟩

/-- Each of the columns is a label where the columns are. -/
theorem label_of_symbolLabels (h : t.symbolLabels = .ok labels) {symbol : String}
    (hs : symbol ∈ t.symbols) : ∃ l, Label.ofText symbol = .ok l := by
  obtain ⟨e, -, he⟩ := forall₂_mem_left (mapM_eq_ok_iff.1 h) hs
  obtain ⟨l, hl, -⟩ := map_eq_ok_iff.1 he
  exact ⟨l, hl⟩

/-! ## One character -/

theorem Valid.finds_stepFrom (hv : t.Valid) (hl : t.symbolLabels = .ok labels) (hi : i < t.size) :
    Finds (t.stepFrom labels char i) (t.Reads i char) := by
  refine (finds_gather fun e _ => hv.finds_targetIndices hi e.1).congr fun j => ?_
  constructor
  · rintro ⟨⟨symbol, l⟩, he, hj⟩
    obtain ⟨hm, hreads⟩ := List.mem_filter.1 he
    obtain ⟨hs, hofText⟩ := (mem_symbolLabels_iff hl).1 hm
    exact ⟨symbol, hs, l, hofText, hreads, hj⟩
  · rintro ⟨symbol, hs, l, hofText, hreads, hj⟩
    exact ⟨(symbol, l), List.mem_filter.2 ⟨(mem_symbolLabels_iff hl).2 ⟨hs, hofText⟩, hreads⟩, hj⟩

/-- What any of some states leads to by reading a character is found. -/
theorem Valid.finds_step (hv : t.Valid) (hl : t.symbolLabels = .ok labels) {s : IndexSet}
    (hs : ∀ i ∈ s, i < t.size) (char : Char) :
    Finds (t.step labels char s) fun j => ∃ i ∈ s, t.Reads i char j :=
  finds_gather fun i hi => hv.finds_stepFrom hl (hs i hi)

/-! ## A whole input -/

/-- A word leads from any of some states to a final one. -/
def Leads (t : Table) (s : IndexSet) (w : List Char) : Prop :=
  ∃ i ∈ s, ∃ j ∈ t.finals, t.arrows.Path i w j

/-- What is reached without reading from some states. -/
structure Closed (t : Table) (s : IndexSet) : Prop where
  lt : ∀ i ∈ s, i < t.size
  mem : ∀ i ∈ s, ∀ j, t.Reaches i j → j ∈ s

theorem leads_nil_iff {s : IndexSet} (hs : t.Closed s) :
    t.Leads s [] ↔ s.any t.isFinal = true := by
  rw [OrderedSet.any_eq_true_iff]
  constructor
  · rintro ⟨i, hi, j, hj, hp⟩
    exact ⟨j, hs.mem i hi j hp, decide_eq_true hj⟩
  · rintro ⟨i, hi, hf⟩
    exact ⟨i, hi, i, of_decide_eq_true hf, .nil⟩

/-- Reading a character leads on from what it leads to, whether or not that is followed further
without reading. -/
theorem leads_cons_iff {s next closed : IndexSet} {w : List Char} (hs : t.Closed s)
    (hnext : ∀ j, j ∈ next ↔ ∃ i ∈ s, t.Reads i char j)
    (hclosed : ∀ k, k ∈ closed ↔ ∃ j ∈ next, t.Reaches j k) :
    t.Leads s (char :: w) ↔ t.Leads closed w := by
  constructor
  · rintro ⟨i, hi, k, hk, hp⟩
    obtain ⟨i', j, hsilent, hreads, hp⟩ := (Arrows.path_cons_iff slow_arrows).1 hp
    have hj := (hnext j).2 ⟨i', hs.mem i hi i' hsilent, arrows_singleton_iff.1 hreads⟩
    exact ⟨j, (hclosed j).2 ⟨j, hj, .nil⟩, k, hk, hp⟩
  · rintro ⟨j', hj', k, hk, hp⟩
    obtain ⟨j, hj, hsilent⟩ := (hclosed j').1 hj'
    obtain ⟨i, hi, hreads⟩ := (hnext j).1 hj
    refine ⟨i, hi, k, hk, (Arrows.path_cons_iff slow_arrows).2 ⟨i, j, .nil, ?_, ?_⟩⟩
    · exact arrows_singleton_iff.2 hreads
    · exact Arrows.Path.append hsilent hp

theorem closed_of_mem_iff {s closed : IndexSet} (hs : ∀ i ∈ s, i < t.size)
    (hclosed : ∀ k, k ∈ closed ↔ ∃ j ∈ s, t.Reaches j k) : t.Closed closed where
  lt k hk := by
    obtain ⟨j, hj, hr⟩ := (hclosed k).1 hk
    exact hr.lt (hs j hj)
  mem k hk k' hr := by
    obtain ⟨j, hj, hr'⟩ := (hclosed k).1 hk
    exact (hclosed k').2 ⟨j, hj, Arrows.Path.append hr' hr⟩

theorem Valid.decides_acceptsFrom (hv : t.Valid) (hc : Closes c t)
    (hl : t.symbolLabels = .ok labels) {current : IndexSet} (hs : t.Closed current)
    (input : List Char) :
    Decides (t.acceptsFrom c labels current input) (t.Leads current input) := by
  induction input generalizing current with
  | nil => exact ⟨_, rfl, (leads_nil_iff hs).symm⟩
  | cons char rest ih =>
    obtain ⟨next, hok, hnext⟩ := hv.finds_step hl hs.lt char
    have hnextLt : ∀ j ∈ next, j < t.size := by
      intro j hj
      obtain ⟨i, -, hreads⟩ := (hnext j).1 hj
      exact hreads.lt.2
    obtain ⟨closed, hokClosed, hclosed⟩ := hc.finds_ofSet hnextLt
    have hunfold : t.acceptsFrom c labels current (char :: rest) =
        if closed.isEmpty then .ok false else t.acceptsFrom c labels closed rest := by
      rw [acceptsFrom, hok]
      change (c.ofSet next >>= _) = _
      rw [hokClosed]
      rfl
    rw [hunfold]
    refine Decides.congr ?_ (leads_cons_iff hs hnext hclosed).symm
    split
    · -- once no state is left, the rest of the input is not looked at
      rename_i hempty
      refine ⟨false, rfl, ?_⟩
      simp only [Bool.false_eq_true, false_iff]
      rintro ⟨i, hi, -⟩
      exact OrderedSet.isEmpty_eq_true_iff.1 hempty i hi
    · exact ih (closed_of_mem_iff hnextLt hclosed)

theorem Valid.initial_lt (hv : t.Valid) (hne : t.states ≠ []) : ∀ i ∈ t.initial, i < t.size := by
  intro i hi
  unfold initial at hi
  split at hi
  · rw [OrderedSet.mem_singleton.1 hi]
    exact List.length_pos_iff.2 hne
  · exact hv.starts_lt i hi

/-- Running a table decides whether it has a word. -/
theorem Valid.decides_accepts (hv : t.Valid) (hne : t.states ≠ [])
    (hl : t.symbolLabels = .ok labels) (input : String) :
    Decides (t.accepts input) (input.toList ∈ t.language) := by
  obtain ⟨c, hcok, hc⟩ := hv.exists_closures
  have hlt := hv.initial_lt hne
  obtain ⟨first, hfirst, hmem⟩ := hc.finds_ofSet hlt
  have hunfold : t.accepts input = t.acceptsFrom c labels first input.toList := by
    rw [accepts, validate_eq_ok_iff.2 hv, hcok, hl]
    simp only [List.isEmpty_eq_false_iff.2 hne]
    change (c.ofSet t.initial >>= _) = _
    rw [hfirst]
    rfl
  rw [hunfold]
  refine (hv.decides_acceptsFrom hc hl (closed_of_mem_iff hlt hmem) _).congr ?_
  constructor
  · rintro ⟨k, hk, j, hj, hp⟩
    obtain ⟨i, hi, hr⟩ := (hmem k).1 hk
    exact ⟨i, j, hi, hj, Arrows.Path.append hr hp⟩
  · rintro ⟨i, j, hi, hj, hp⟩
    exact ⟨i, (hmem i).2 ⟨i, hi, .nil⟩, j, hj, hp⟩

/-! ## Faults -/

theorem Valid.accepts_of_noStates (hv : t.Valid) (h : t.states = []) (input : String) :
    t.accepts input = .error .noStates := by
  rw [accepts, validate_eq_ok_iff.2 hv, h]
  rfl

theorem Valid.accepts_of_symbolLabels (hv : t.Valid) (hne : t.states ≠ []) {e : Error}
    (he : t.symbolLabels = .error e) (input : String) : t.accepts input = .error e := by
  obtain ⟨c, hcok, -⟩ := hv.exists_closures
  rw [accepts, validate_eq_ok_iff.2 hv, hcok, he, List.isEmpty_eq_false_iff.2 hne]
  rfl

/-- Tables with the same columns and the same words answer alike, and fail alike where there are
no states or a column is no label. -/
theorem Valid.accepts_eq {r : Table} (hr : r.Valid) (hv : t.Valid)
    (hstates : r.states = [] ↔ t.states = []) (hsymbols : r.symbols = t.symbols)
    (hlanguage : t.states ≠ [] → r.language = t.language) (input : String) :
    r.accepts input = t.accepts input := by
  by_cases hne : t.states = []
  · rw [hv.accepts_of_noStates hne, hr.accepts_of_noStates (hstates.2 hne)]
  have hrne : r.states ≠ [] := fun h => hne (hstates.1 h)
  have hlabels : r.symbolLabels = t.symbolLabels := by rw [symbolLabels, symbolLabels, hsymbols]
  cases hl : t.symbolLabels with
  | error e =>
    rw [hv.accepts_of_symbolLabels hne hl, hr.accepts_of_symbolLabels hrne (hlabels.trans hl)]
  | ok labels =>
    have hdecides := hr.decides_accepts hrne (hlabels.trans hl) input
    rw [hlanguage hne] at hdecides
    exact hdecides.unique (hv.decides_accepts hne hl input)

/-! ## Paths from start to end -/

/-- A state at which a path may start: a start state, or the first state where none is marked. -/
def StartsAt (t : Table) (i : Nat) : Prop :=
  i ∈ t.starts ∨ (∀ k, ¬ k ∈ t.starts) ∧ i = 0

theorem mem_initial_iff : i ∈ t.initial ↔ t.StartsAt i := by
  unfold initial StartsAt
  split
  · rename_i hempty
    have hnone := OrderedSet.isEmpty_eq_true_iff.1 hempty
    rw [OrderedSet.mem_singleton]
    exact ⟨fun hi => .inr ⟨hnone, hi⟩, fun h => h.elim (absurd · (hnone i)) And.right⟩
  · rename_i hne
    have hsome : ¬ ∀ k, ¬ k ∈ t.starts := fun h => hne (OrderedSet.isEmpty_eq_true_iff.2 h)
    exact ⟨.inl, fun h => h.elim id fun hnone => absurd hnone.1 hsome⟩

/-- Running a table that makes sense, with states and with labels for columns, answers whether
there is a path from where it may start to a final state that spells the input: by moves without
reading, as many as there may be, and by moves in columns that read the next character. -/
theorem accepts_iff_path {t : Table} (hv : t.validate = .ok ()) (hne : t.states ≠ [])
    (hl : ∀ symbol ∈ t.symbols, ∃ l, Label.ofText symbol = .ok l) (input : String) :
    (t.accepts input = .ok true ↔
      ∃ i j, t.StartsAt i ∧ j ∈ t.finals ∧ t.arrows.Path i input.toList j) ∧
    (t.accepts input = .ok false ↔
      ¬ ∃ i j, t.StartsAt i ∧ j ∈ t.finals ∧ t.arrows.Path i input.toList j) := by
  obtain ⟨labels, hlabels⟩ := exists_symbolLabels hl
  obtain ⟨answer, hok, hiff⟩ := (validate_eq_ok_iff.1 hv).decides_accepts hne hlabels input
  have hpath : input.toList ∈ t.language ↔
      ∃ i j, t.StartsAt i ∧ j ∈ t.finals ∧ t.arrows.Path i input.toList j := by
    simp only [← mem_initial_iff]
    exact Iff.rfl
  rw [hok, ← hpath, ← hiff]
  simp

/-- A table without a start state, whose states reach each other without reading and some of whose
characters are read in two columns. -/
def cycling : Table :=
  ((ofStates ["p", "q", "r"] [".", "[a-c]", usualMarker] usualMarker).store
    [⟨"p", usualMarker, ["q"]⟩, ⟨"q", usualMarker, ["p", "r"]⟩, ⟨"q", ".", ["p"]⟩,
      ⟨"q", "[a-c]", ["r"]⟩, ⟨"r", usualMarker, ["q"]⟩]).markFinal 2

theorem accepts_iff_path_cycling :
    (cycling.accepts "xa" = .ok true ↔ ∃ i j, cycling.StartsAt i ∧ j ∈ cycling.finals ∧
      cycling.arrows.Path i ['x', 'a'] j) ∧
    (cycling.accepts "xa" = .ok false ↔ ¬ ∃ i j, cycling.StartsAt i ∧ j ∈ cycling.finals ∧
      cycling.arrows.Path i ['x', 'a'] j) := by
  have hvalid : cycling.Valid := by decide +kernel
  have hlabels : ∀ symbol ∈ cycling.symbols, (Label.ofText symbol).toOption.isSome = true := by
    decide +kernel
  exact accepts_iff_path (validate_eq_ok_iff.2 hvalid) (by decide)
    (fun symbol hs => exists_ok_of_isSome (hlabels symbol hs)) "xa"

end Table

end Acceptor
