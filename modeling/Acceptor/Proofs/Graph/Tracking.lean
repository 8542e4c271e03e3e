/-
Walking through the graph of a deterministic table beside running the table. Running a table holds a
set of states after each character (`Valid.accepts_eq_held`). Main statement: where no state moves
without reading, at most one is stored for each state and column, and the columns are disjoint, the
walk stands after each character on the only state that is held, and stops without an edge exactly
where none is held any more (`walk_inStep`).
-/
import Acceptor.Proofs.Graph.Walk
import Acceptor.Proofs.Table.Refinement

namespace Acceptor

namespace Table

variable {t : Table} {c : Closures} {labels columns : List (String × Label)} {s : IndexSet}
  {g : Graph} {n : Node} {i j position : Nat} {char : Char} {input : List Char} {run : Run}

/-! ## The states that are held -/

/-- The states that some states lead to by a character, and on from there without reading. -/
def advance (t : Table) (closures : Closures) (labels : List (String × Label)) (s : IndexSet)
    (char : Char) : Except Error IndexSet :=
  t.step labels char s >>= closures.ofSet

/-- The states that are held after some characters, from those held before. -/
def heldFrom (t : Table) (closures : Closures) (labels : List (String × Label)) (s : IndexSet)
    (read : List Char) : Except Error IndexSet :=
  read.foldlM (t.advance closures labels) s

/-- The states that running a table holds after some characters. -/
def held (t : Table) (read : List Char) : Except Error IndexSet := do
  let closures ← t.closures
  let labels ← t.symbolLabels
  let first ← closures.ofSet t.initial
  t.heldFrom closures labels first read

theorem Valid.finds_advance (hv : t.Valid) (hc : Closes c t) (hl : t.symbolLabels = .ok labels)
    (hs : ∀ i ∈ s, i < t.size) (char : Char) : Finds (t.advance c labels s char) fun k =>
      ∃ i ∈ s, ∃ j, t.Reads i char j ∧ t.Reaches j k := by
  obtain ⟨next, hok, hnext⟩ := hv.finds_step hl hs char
  have hlt : ∀ j ∈ next, j < t.size := by
    intro j hj
    obtain ⟨i, -, hreads⟩ := (hnext j).1 hj
    exact hreads.lt.2
  refine finds_bind hok ((hc.finds_ofSet hlt).congr fun k => ?_)
  constructor
  · rintro ⟨j, hj, hk⟩
    obtain ⟨i, hi, hreads⟩ := (hnext j).1 hj
    exact ⟨i, hi, j, hreads, hk⟩
  · rintro ⟨i, hi, j, hreads, hk⟩
    exact ⟨j, (hnext j).2 ⟨i, hi, hreads⟩, hk⟩

theorem heldFrom_cons {next : IndexSet} (h : t.advance c labels s char = .ok next)
    (read : List Char) :
    t.heldFrom c labels s (char :: read) = t.heldFrom c labels next read := by
  unfold heldFrom
  rw [List.foldlM_cons, h]
  rfl

theorem held_eq_heldFrom {first : IndexSet} (hc : t.closures = .ok c)
    (hl : t.symbolLabels = .ok labels) (hfirst : c.ofSet t.initial = .ok first)
    (read : List Char) : t.held read = t.heldFrom c labels first read := by
  rw [held, hc, hl]
  show (c.ofSet t.initial >>= _) = _
  rw [hfirst]
  rfl

/-- Once no state is held, none is held after any more characters. -/
theorem heldFrom_empty (read : List Char) : t.heldFrom c labels .empty read = .ok .empty := by
  induction read with
  | nil => rfl
  | cons char rest ih => exact ih

/-- Running on from some states answers whether a final state is held at the end. -/
theorem Valid.acceptsFrom_eq (hv : t.Valid) (hc : Closes c t) (hl : t.symbolLabels = .ok labels)
    (hs : ∀ i ∈ s, i < t.size) (input : List Char) : t.acceptsFrom c labels s input =
      (t.heldFrom c labels s input).map (·.any t.isFinal) := by
  induction input generalizing s with
  | nil => rfl
  | cons char rest ih =>
    obtain ⟨next, hok, hmem⟩ := hv.finds_advance hc hl hs char
    have hlt : ∀ k ∈ next, k < t.size := by
      intro k hk
      obtain ⟨i, -, j, hreads, hreaches⟩ := (hmem k).1 hk
      exact hreaches.lt hreads.lt.2
    obtain ⟨followed, hfollowed, hclosed⟩ := bind_eq_ok_iff.1 hok
    rw [heldFrom_cons hok, acceptsFrom, hfollowed]
    show (c.ofSet followed >>= _) = _
    rw [hclosed]
    show (if _ then _ else _) = _
    split
    · -- the rest of the input would be read from no state
      rename_i hempty
      rw [OrderedSet.eq_empty_of_isEmpty hempty, heldFrom_empty]
      rfl
    · exact ih hlt

/-- Running a table answers whether a final state is held after the input. -/
theorem Valid.accepts_eq_held (hv : t.Valid) (hne : t.states ≠ [])
    (hl : t.symbolLabels = .ok labels) (input : String) :
    t.accepts input = (t.held input.toList).map (·.any t.isFinal) := by
  obtain ⟨c, hcok, hc⟩ := hv.exists_closures
  have hlt := hv.initial_lt hne
  obtain ⟨first, hfirst, hmem⟩ := hc.finds_ofSet hlt
  have hfirstLt : ∀ k ∈ first, k < t.size := by
    intro k hk
    obtain ⟨i, hi, hreaches⟩ := (hmem k).1 hk
    exact hreaches.lt (hlt i hi)
  have haccepts : t.accepts input = t.acceptsFrom c labels first input.toList := by
    rw [accepts, validate_eq_ok_iff.2 hv, hcok, hl]
    simp only [List.isEmpty_eq_false_iff.2 hne]
    show (c.ofSet t.initial >>= _) = _
    rw [hfirst]
    rfl
  rw [haccepts, held_eq_heldFrom hcok hl hfirst, hv.acceptsFrom_eq hc hl hfirstLt]

/-! ## Deterministic tables -/

theorem length_targets_le (h : t.isDeterministic = true) (state symbol : String) :
    (t.targets state symbol).length ≤ 1 := by
  have hall := (Bool.and_eq_true_iff.1 h).2
  unfold targets
  split
  · exact Nat.zero_le 1
  · rename_i row hrow
    cases hts : row.get? symbol with
    | none => exact Nat.zero_le 1
    | some ts =>
      have hrow : row ∈ t.moves.values :=
        List.mem_map.2 ⟨_, Dict.mem_entries_iff.2 hrow, rfl⟩
      have hts : ts ∈ row.values := List.mem_map.2 ⟨_, Dict.mem_entries_iff.2 hts, rfl⟩
      exact of_decide_eq_true (List.all_eq_true.1 (List.all_eq_true.1 hall row hrow) ts hts)

theorem eq_of_mem_targets (h : t.isDeterministic = true) {p q q' symbol : String}
    (hq : q ∈ t.targets p symbol) (hq' : q' ∈ t.targets p symbol) : q = q' := by
  have hpos := List.length_pos_of_mem hq
  obtain ⟨x, hx⟩ := List.length_eq_one_iff.1 (Nat.le_antisymm (length_targets_le h p symbol) hpos)
  rw [hx, List.mem_singleton] at hq hq'
  exact hq.trans hq'.symm

/-- In disjoint columns a deterministic table has at most one state to follow by a character. -/
theorem Valid.functional (hv : t.Valid) (h : t.isDeterministic = true) (hd : t.Disjoint) :
    t.Functional := by
  rintro i char j k ⟨a, ha, l, hl, hlc, p, q, hp, hq, hj⟩
    ⟨b, hb, l', hl', hlc', p', q', hp', hq', hk⟩
  obtain rfl := hd a ha b hb l l' hl hl' char hlc hlc'
  cases hp.symm.trans hp'
  obtain rfl := eq_of_mem_targets h hq hq'
  exact getElem?_states_inj hv.nodup hj hk

/-- A table whose states follow each other by reading only, at most one of them by each character,
with what is found for running it. -/
structure Determined (t : Table) (c : Closures) (labels : List (String × Label)) : Prop where
  valid : t.Valid
  closures_eq : t.closures = .ok c
  closes : Closes c t
  labels_eq : t.symbolLabels = .ok labels
  targets_marker : ∀ state, t.targets state t.marker = []
  functional : t.Functional

theorem Valid.exists_determined (hv : t.Valid) (h : t.isDeterministic = true)
    (hl : ∀ symbol ∈ t.symbols, ∃ l, Label.ofText symbol = .ok l) (hd : t.Disjoint) :
    ∃ c labels, t.Determined c labels := by
  obtain ⟨c, hcok, hc⟩ := hv.exists_closures
  obtain ⟨labels, hlabels⟩ := exists_symbolLabels hl
  have hsilent : t.hasEpsilonMoves = false := by
    simpa using (Bool.and_eq_true_iff.1 h).1
  exact ⟨c, labels, hv, hcok, hc, hlabels, hv.hasEpsilonMoves_eq_false_iff.1 hsilent,
    hv.functional h hd⟩

theorem Determined.finds_advance (h : t.Determined c labels) (hi : i < t.size) :
    Finds (t.advance c labels (.singleton i) char) (t.Reads i char) := by
  refine (h.valid.finds_advance h.closes h.labels_eq (fun k hk => ?_) char).congr fun k => ?_
  · rwa [OrderedSet.mem_singleton.1 hk]
  · constructor
    · rintro ⟨i', hi', j, hreads, hreaches⟩
      obtain rfl := OrderedSet.mem_singleton.1 hi'
      exact eq_of_reaches h.targets_marker hreaches ▸ hreads
    · exact fun hreads => ⟨i, OrderedSet.mem_singleton.2 rfl, k, hreads, .nil⟩

theorem Determined.heldFrom_of_reads (h : t.Determined c labels) (hreads : t.Reads i char j)
    (read : List Char) : t.heldFrom c labels (.singleton i) (char :: read) =
      t.heldFrom c labels (.singleton j) read := by
  have hadvance : t.advance c labels (.singleton i) char = .ok (.singleton j) := by
    refine (h.finds_advance hreads.lt.1).unique ⟨_, rfl, fun k => ?_⟩
    rw [OrderedSet.mem_singleton]
    exact ⟨fun he => he ▸ hreads, fun hk => h.functional i char k j hk hreads⟩
  exact heldFrom_cons hadvance read

theorem Determined.heldFrom_of_not_reads (h : t.Determined c labels) (hi : i < t.size)
    (hnone : ∀ j, ¬ t.Reads i char j) (read : List Char) :
    t.heldFrom c labels (.singleton i) (char :: read) = .ok .empty := by
  have hadvance : t.advance c labels (.singleton i) char = .ok .empty := by
    refine (h.finds_advance hi).unique ⟨_, rfl, fun k => ?_⟩
    exact iff_of_false (OrderedSet.not_mem_empty k) (hnone k)
  rw [heldFrom_cons hadvance, heldFrom_empty]

/-- The only start state is held before any character. -/
theorem Determined.held_eq (h : t.Determined c labels) (hs : t.starts = .singleton i)
    (read : List Char) : t.held read = t.heldFrom c labels (.singleton i) read := by
  have hi : i < t.size := h.valid.starts_lt i (hs ▸ OrderedSet.mem_singleton.2 rfl)
  have hinitial : t.initial = .singleton i := by
    rw [initial, hs]
    rfl
  have hfirst : c.ofSet t.initial = .ok (.singleton i) := by
    rw [hinitial]
    refine (h.closes.finds_ofSet fun k hk => ?_).unique ⟨_, rfl, fun k => ?_⟩
    · rwa [OrderedSet.mem_singleton.1 hk]
    · rw [OrderedSet.mem_singleton]
      constructor
      · rintro rfl
        exact ⟨k, OrderedSet.mem_singleton.2 rfl, .nil⟩
      · rintro ⟨j, hj, hreaches⟩
        obtain rfl := OrderedSet.mem_singleton.1 hj
        exact (eq_of_reaches h.targets_marker hreaches).symm
  exact held_eq_heldFrom h.closures_eq h.labels_eq hfirst read

/-! ## The walk -/

/-- How a walk goes from the state where it stands: it ends with the input or where no state follows
by the next character, and else goes on from one that does. -/
inductive Walks (t : Table) : Nat → Nat → List Char → Run → Prop
  | ended {i position : Nat} :
    Walks t i position []
      ⟨t.isFinal i, [], if t.isFinal i then none else some (.notFinal i)⟩
  | noTransition {i position : Nat} {char : Char} {rest : List Char} :
    (∀ j, ¬ t.Reads i char j) →
      Walks t i position (char :: rest) ⟨false, [], some (.noTransition i char position)⟩
  | step {i j position : Nat} {char : Char} {rest : List Char} {run : Run} :
    t.Reads i char j → Walks t j (position + 1) rest run →
      Walks t i position (char :: rest) { run with steps := ⟨i, char, j⟩ :: run.steps }

/-- A walk through the graph of a table goes from state to state, each node named by its state. -/
theorem Drawn.exists_walks (h : Drawn t columns g) (hn : g.nodes[i]? = some n) (position : Nat)
    (input : List Char) :
    ∃ run, g.walkFrom {} n position input = .ok run ∧ t.Walks i position input run := by
  induction input generalizing i n position with
  | nil =>
    have hnode := h.nodeFor i n hn
    refine ⟨_, rfl, ?_⟩
    rw [hnode.isFinal_eq, hnode.id_eq]
    exact .ended
  | cons char rest ih =>
    have hid : n.id = i := (h.nodeFor i n hn).id_eq
    have hnode := h.graphOf.nodeOf i n hn
    rw [Graph.walkFrom, hid]
    split
    · rename_i hnone
      exact ⟨_, rfl, .noTransition fun j => hnode.not_reads_of_find? hnone⟩
    · rename_i e he
      have hreads := hnode.reads_of_find? he
      obtain ⟨next, hnext⟩ := h.graphOf.exists_node hreads.lt.2
      obtain ⟨run, hrun, hwalks⟩ := ih hnext (position + 1)
      rw [Graph.node?, hnext]
      refine ⟨_, map_eq_ok_iff.2 ⟨run, hrun, rfl⟩, ?_⟩
      rw [(h.nodeFor _ next hnext).id_eq]
      exact .step hreads hwalks

/-! ## Both in step -/

/-- A run goes in step with the sets that are held along its input, none of which has two states:
each step leads from the only state held before its character to the only one held after it, no
edge is found exactly at the first character after which no state is held, and else the run ends as
the only state held after the input is final or not. -/
structure InStep (t : Table) (held : List Char → Except Error IndexSet) (position : Nat)
    (input : List Char) (run : Run) : Prop where
  size_le : ∀ k, ∃ s, held (input.take k) = .ok s ∧ s.size ≤ 1
  steps_iff : ∀ k i char j, run.steps[k]? = some ⟨i, char, j⟩ ↔ input[k]? = some char ∧
    held (input.take k) = .ok (.singleton i) ∧ held (input.take (k + 1)) = .ok (.singleton j)
  position_le : ∀ i char q, run.rejection = some (.noTransition i char q) → position ≤ q
  noTransition_iff : ∀ k i char,
    run.rejection = some (.noTransition i char (position + k)) ↔ input[k]? = some char ∧
      held (input.take k) = .ok (.singleton i) ∧ held (input.take (k + 1)) = .ok .empty ∧
      ∀ m ≤ k, held (input.take m) ≠ .ok .empty
  notFinal_iff : ∀ i, run.rejection = some (.notFinal i) ↔
    held input = .ok (.singleton i) ∧ t.isFinal i = false
  rejection_eq_none_iff : run.rejection = none ↔
    ∃ i, held input = .ok (.singleton i) ∧ t.isFinal i = true
  accepted_iff : run.accepted = true ↔
    ∃ i, held input = .ok (.singleton i) ∧ t.isFinal i = true

section InStep

variable {after : List Char → Except Error IndexSet} {rest : List Char}

theorem ok_singleton_iff {x : Except Error IndexSet} (h : x = .ok (.singleton i)) :
    x = .ok (.singleton j) ↔ i = j := by
  rw [h, Except.ok.injEq, OrderedSet.singleton_inj]

theorem ok_singleton_ne_empty {x : Except Error IndexSet} (h : x = .ok (.singleton i)) :
    x ≠ .ok .empty := by
  rw [h]
  exact fun he => OrderedSet.singleton_ne_empty i (Except.ok.inj he)

/-- At the end of the input nothing more is read. -/
theorem inStep_nil (h : after [] = .ok (.singleton i)) : InStep t after position []
    ⟨t.isFinal i, [], if t.isFinal i then none else some (.notFinal i)⟩ where
  size_le k := by
    rw [List.take_nil]
    exact ⟨_, h, Nat.le_refl 1⟩
  steps_iff := by simp
  position_le := by grind
  noTransition_iff := by grind
  notFinal_iff i' := by
    rw [ok_singleton_iff h]
    grind
  rejection_eq_none_iff := by
    simp only [ok_singleton_iff h]
    grind
  accepted_iff := by simp [ok_singleton_iff h]

/-- Where no state follows, none is held after any of the rest of the input. -/
theorem inStep_stuck (h : after [] = .ok (.singleton i))
    (hempty : ∀ read, after (char :: read) = .ok .empty) :
    InStep t after position (char :: rest) ⟨false, [], some (.noTransition i char position)⟩ where
  size_le k := by
    cases k with
    | zero => exact ⟨_, h, Nat.le_refl 1⟩
    | succ k => exact ⟨_, hempty _, Nat.zero_le 1⟩
  steps_iff k i' char' j := by simp [hempty, (OrderedSet.singleton_ne_empty j).symm]
  position_le := by grind
  noTransition_iff k i' char' := by
    cases k with
    | zero =>
      constructor
      · rintro ⟨⟩
        refine ⟨rfl, h, hempty [], fun m hm => ?_⟩
        rw [Nat.le_zero.1 hm]
        exact ok_singleton_ne_empty h
      · rintro ⟨hchar, hi, -⟩
        cases hchar
        rw [(ok_singleton_iff h).1 hi]
        rfl
    | succ k => simp [hempty, (OrderedSet.singleton_ne_empty i').symm]
  notFinal_iff i' := by simp [hempty, (OrderedSet.singleton_ne_empty i').symm]
  rejection_eq_none_iff := by simp [hempty, fun i => (OrderedSet.singleton_ne_empty i).symm]
  accepted_iff := by simp [hempty, fun i => (OrderedSet.singleton_ne_empty i).symm]

/-- Reading a character moves both on. -/
theorem InStep.step (h : InStep t (fun read => after (char :: read)) (position + 1) rest run)
    (hfirst : after [] = .ok (.singleton i)) (hnext : after [char] = .ok (.singleton j)) :
    InStep t after position (char :: rest) { run with steps := ⟨i, char, j⟩ :: run.steps } where
  size_le k := by
    cases k with
    | zero => exact ⟨_, hfirst, Nat.le_refl 1⟩
    | succ k => exact h.size_le k
  steps_iff k i' char' j' := by
    cases k with
    | zero =>
      show some _ = some _ ↔ some _ = some _ ∧ after [] = _ ∧ after [char] = _
      rw [ok_singleton_iff hfirst, ok_singleton_iff hnext]
      grind
    | succ k => exact h.steps_iff k i' char' j'
  position_le i' char' q hq := Nat.le_of_succ_le (h.position_le i' char' q hq)
  noTransition_iff k i' char' := by
    cases k with
    | zero =>
      -- the rest is read from the next position on, and a state is held there
      refine iff_of_false (fun hq => ?_) fun hstop => ok_singleton_ne_empty hnext hstop.2.2.1
      exact Nat.not_succ_le_self _ (h.position_le i' char' _ hq)
    | succ k =>
      have hposition : position + (k + 1) = position + 1 + k := by omega
      rw [hposition]
      refine (h.noTransition_iff k i' char').trans (and_congr_right' (and_congr_right'
        (and_congr_right' ⟨fun hall m hm => ?_, fun hall m hm => ?_⟩)))
      · cases m with
        | zero => exact ok_singleton_ne_empty hfirst
        | succ m => exact hall m (by omega)
      · exact hall (m + 1) (by omega)
  notFinal_iff := h.notFinal_iff
  rejection_eq_none_iff := h.rejection_eq_none_iff
  accepted_iff := h.accepted_iff

end InStep

/-- A walk through a determined table goes in step with running it. -/
theorem Walks.inStep (hw : t.Walks i position input run) (h : t.Determined c labels)
    (hi : i < t.size) :
    InStep t (t.heldFrom c labels (.singleton i)) position input run := by
  induction hw with
  | ended => exact inStep_nil rfl
  | noTransition hnone => exact inStep_stuck rfl (h.heldFrom_of_not_reads hi hnone)
  | step hreads _ ih =>
    have hmoved := funext (h.heldFrom_of_reads hreads)
    exact (hmoved ▸ ih hreads.lt.2).step rfl (h.heldFrom_of_reads hreads [])

/-- A set of one state at most has a final state where it is that of a final state. -/
theorem any_eq_true_iff_of_size (h : s.size ≤ 1) {q : Nat → Bool} :
    s.any q = true ↔ ∃ i, s = .singleton i ∧ q i = true := by
  rw [OrderedSet.any_eq_true_iff]
  constructor
  · rintro ⟨i, hi, hq⟩
    refine ⟨i, ?_, hq⟩
    have hpos : 0 < s.size := List.length_pos_of_mem hi
    obtain ⟨x, hx⟩ := OrderedSet.exists_eq_singleton (Nat.le_antisymm h hpos)
    rw [hx, OrderedSet.mem_singleton] at hi
    rw [hx, hi]
  · rintro ⟨i, rfl, hq⟩
    exact ⟨i, OrderedSet.mem_singleton.2 rfl, hq⟩

/-- The answer of a walk in step with running a table is that of running it. -/
theorem InStep.map_any_eq {after : List Char → Except Error IndexSet}
    (h : InStep t after position input run) :
    (after input).map (·.any t.isFinal) = .ok run.accepted := by
  obtain ⟨s, hs, hsize⟩ := h.size_le input.length
  rw [List.take_length] at hs
  have haccepted : run.accepted = true ↔ s.any t.isFinal = true := by
    rw [any_eq_true_iff_of_size hsize, h.accepted_iff, hs]
    simp only [Except.ok.injEq]
  rw [hs, Bool.eq_iff_iff.2 haccepted]
  rfl

/-- On a deterministic table the walk and running the table agree. Let a table make sense, with at
most one state stored for each state and column and none for the marker, one start state, some
final state, and columns that read as labels of which no two different ones read the same
character. Then it has a graph. To every input the graph answers as the table does, which is
whether a final state is held after it, and the walk goes in step with the states held. -/
theorem walk_inStep {t : Table} (hv : t.validate = .ok ()) (hd : t.isDeterministic = true)
    (hs : t.starts.size = 1) (hf : t.finals.isEmpty = false)
    (hl : ∀ symbol ∈ t.symbols, ∃ l, Label.ofText symbol = .ok l) (hdisjoint : t.Disjoint) :
    ∃ g, Graph.ofTable t = .ok g ∧ ∀ input : String, g.accepts input = t.accepts input ∧
      t.accepts input = (t.held input.toList).map (·.any t.isFinal) ∧
      ∃ run, g.walk input {} = .ok run ∧ InStep t t.held 0 input.toList run := by
  have hv := validate_eq_ok_iff.1 hv
  obtain ⟨columns, g, hg, hdrawn⟩ := hv.exists_drawn hl
  obtain ⟨c, labels, h⟩ := hv.exists_determined hd hl hdisjoint
  obtain ⟨x, hstart⟩ := OrderedSet.exists_eq_singleton hs
  obtain ⟨start, hnode, hwalk⟩ := hdrawn.graphOf.exists_walk_eq hv hstart hf
  have hx : x < t.size := hv.starts_lt x (hstart ▸ OrderedSet.mem_singleton.2 rfl)
  have hne : t.states ≠ [] := List.ne_nil_of_length_pos (Nat.zero_lt_of_lt hx)
  refine ⟨g, hg, fun input => ?_⟩
  obtain ⟨run, hrun, hwalks⟩ := hdrawn.exists_walks hnode 0 input.toList
  have hstep : InStep t t.held 0 input.toList run := by
    rw [funext (h.held_eq hstart)]
    exact hwalks.inStep h hx
  have hheld := hv.accepts_eq_held hne h.labels_eq input
  refine ⟨?_, hheld, run, (hwalk input).trans hrun, hstep⟩
  rw [hheld, hstep.map_any_eq, Graph.accepts, hwalk, hrun]
  rfl

/-- A deterministic table as one writes it by hand: entries that hold nothing, a column that is
there twice, one that never reads, and a state without entries. -/
def handwritten : Table :=
  (((ofStates ["p", "q", "r"] ["[a-c]", "x", "ε", "[a-c]", "λ"] "λ").store
    [⟨"p", "[a-c]", ["q"]⟩, ⟨"p", "x", []⟩, ⟨"p", "λ", []⟩, ⟨"q", "x", ["q"]⟩,
      ⟨"q", "[a-c]", ["r"]⟩, ⟨"q", "ε", ["p"]⟩]).markStart 0).markFinal 1

theorem disjoint_handwritten : handwritten.Disjoint := by
  have hlabels : handwritten.symbolLabels = .ok [("[a-c]", .range 'a' 'c'), ("x", .literal 'x'),
      ("ε", .epsilon), ("[a-c]", .range 'a' 'c')] := by rfl
  -- the character tells which column reads it
  have hcolumn : ∀ a ∈ handwritten.symbols, ∀ l, Label.ofText a = .ok l → ∀ c,
      l.reads c = true → a = if c = 'x' then "x" else "[a-c]" := by
    intro a ha l hl c hc
    have hmem := (mem_symbolLabels_iff hlabels).2 ⟨ha, hl⟩
    simp only [List.mem_cons, Prod.mk.injEq, List.not_mem_nil, or_false] at hmem
    obtain ⟨rfl, rfl⟩ | ⟨rfl, rfl⟩ | ⟨rfl, rfl⟩ | ⟨rfl, rfl⟩ := hmem
    · rw [if_neg]
      rintro rfl
      exact absurd hc (by decide)
    · rw [if_pos (of_decide_eq_true hc).symm]
    · cases hc
    · rw [if_neg]
      rintro rfl
      exact absurd hc (by decide)
  intro a ha b hb l m hl hm c hlc hmc
  rw [hcolumn a ha l hl c hlc, hcolumn b hb m hm c hmc]

theorem walk_inStep_handwritten : ∃ g, Graph.ofTable handwritten = .ok g ∧
    ∀ input : String, g.accepts input = handwritten.accepts input ∧
      handwritten.accepts input =
        (handwritten.held input.toList).map (·.any handwritten.isFinal) ∧
      ∃ run, g.walk input {} = .ok run ∧
        InStep handwritten handwritten.held 0 input.toList run := by
  have hvalid : handwritten.Valid := by decide +kernel
  have hlabels : ∀ symbol ∈ handwritten.symbols, (Label.ofText symbol).toOption.isSome = true := by
    decide +kernel
  exact walk_inStep (validate_eq_ok_iff.2 hvalid) (by decide +kernel) (by decide +kernel)
    (by decide +kernel) (fun symbol hs => exists_ok_of_isSome (hlabels symbol hs))
    disjoint_handwritten

end Table

end Acceptor
