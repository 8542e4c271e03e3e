/-
Walking through the graph of a table. Main statements: the graph of a valid table whose columns
are labels has the moves of the table (`Valid.exists_ofTable`), and where at most one state follows
another by reading a character, the walk decides whether a word leads to a final state
(`GraphOf.exists_walkFrom`).
-/
import Acceptor.Graph.Walk
import Acceptor.Proofs.Table.Acceptance
import Acceptor.Tabulation

namespace Acceptor

open Table

variable {t : Table} {g : Graph} {n : Node} {columns : List (String × Label)} {i j : Nat} {c : Char}

/-! ## The graph of a table -/

/-- A node at the position of a state: its edges read what leads on from the state. -/
structure NodeOf (t : Table) (i : Nat) (n : Node) : Prop where
  isStart_eq : n.isStart = t.isStart i
  isFinal_eq : n.isFinal = t.isFinal i
  reads_iff : ∀ c j, (∃ e ∈ n.edges, e.reads {} c = true ∧ e.target = j) ↔ t.Reads i c j

/-- A graph with a node for each state. -/
structure GraphOf (t : Table) (g : Graph) : Prop where
  size_eq : g.size = t.size
  nodeOf : ∀ i n, g.nodes[i]? = some n → NodeOf t i n

theorem GraphOf.exists_node (h : GraphOf t g) (hi : i < t.size) : ∃ n, g.nodes[i]? = some n :=
  ⟨_, List.getElem?_eq_getElem (Nat.lt_of_lt_of_eq hi h.size_eq.symm)⟩

theorem reads_label {l : Label} : Edge.reads {} ⟨j, .label l⟩ c = l.reads c := by
  cases l with
  | epsilon => rfl
  | any => rfl
  | literal => rfl
  | range => rfl
  | oneOf => rfl
  | noneOf => rfl

namespace Table

/-- Each column is taken as a label, that of the marker as the one that reads nothing. -/
def ColumnLabel (t : Table) (symbol : String) (e : String × Label) : Prop :=
  e.1 = symbol ∧ (symbol = t.marker ∧ e.2 = .epsilon ∨
    symbol ≠ t.marker ∧ Label.ofText symbol = .ok e.2)

theorem exists_columns (h : ∀ symbol ∈ t.symbols, ∃ l, Label.ofText symbol = .ok l) :
    ∃ columns, t.columns = .ok columns ∧ List.Forall₂ t.ColumnLabel t.alphabet columns := by
  refine exists_mapM_of fun symbol hs => ?_
  by_cases hm : symbol = t.marker
  · have hmarker : t.isMarker symbol = true := decide_eq_true hm
    exact ⟨(symbol, .epsilon), by rw [if_pos hmarker], rfl, .inl ⟨hm, rfl⟩⟩
  · have hmarker : ¬ t.isMarker symbol = true := fun he => hm (of_decide_eq_true he)
    obtain ⟨l, hl⟩ := h symbol (mem_symbols_iff.2 ⟨hs, hm⟩)
    refine ⟨(symbol, l), ?_, rfl, .inr ⟨hm, hl⟩⟩
    rw [if_neg hmarker]
    exact map_eq_ok_iff.2 ⟨l, hl, rfl⟩

/-- What is read in a column that is taken as a label. -/
theorem reads_iff_column (h : List.Forall₂ t.ColumnLabel t.alphabet columns) :
    t.Reads i c j ↔ ∃ e ∈ columns, e.2.reads c = true ∧ t.Follows i e.1 j := by
  constructor
  · rintro ⟨symbol, hs, l, hl, hc, hf⟩
    obtain ⟨halphabet, hm⟩ := mem_symbols_iff.1 hs
    obtain ⟨⟨s, l'⟩, he, rfl, hlabel⟩ := forall₂_mem_left h halphabet
    rcases hlabel with ⟨hmarker, -⟩ | ⟨-, hl'⟩
    · exact absurd hmarker hm
    · cases hl.symm.trans hl'
      exact ⟨_, he, hc, hf⟩
  · rintro ⟨⟨s, l⟩, he, hc, hf⟩
    obtain ⟨symbol, hs, rfl, hlabel⟩ := forall₂_mem_right h he
    rcases hlabel with ⟨-, hl⟩ | ⟨hm, hl⟩
    · cases hl
      cases hc
    · exact ⟨_, mem_symbols_iff.2 ⟨hs, hm⟩, l, hl, hc, hf⟩

/-- The edges under a column lead to what follows there. -/
def EdgesUnder (t : Table) (i : Nat) (e : String × Label) (edges : List Edge) : Prop :=
  ∀ x, x ∈ edges ↔ ∃ j, t.Follows i e.1 j ∧ x = ⟨j, .label e.2⟩

theorem Valid.exists_edgesUnder (hv : t.Valid) (hi : i < t.size) (e : String × Label) : ∃ edges,
    (do return (← t.targetIndices i e.1).toList.map fun target => (⟨target, .label e.2⟩ : Edge)) =
      Except.ok (ε := Error) edges ∧ t.EdgesUnder i e edges := by
  obtain ⟨s, hs, hmem⟩ := hv.finds_targetIndices hi e.1
  refine ⟨s.toList.map fun target => ⟨target, .label e.2⟩, by rw [hs]; rfl, fun x => ?_⟩
  rw [List.mem_map]
  constructor
  · rintro ⟨j, hj, rfl⟩
    exact ⟨j, (hmem j).1 hj, rfl⟩
  · rintro ⟨j, hj, rfl⟩
    exact ⟨j, (hmem j).2 hj, rfl⟩

/-- A node for a state: an edge for each move, the columns taken as labels. -/
structure NodeFor (t : Table) (columns : List (String × Label)) (i : Nat) (n : Node) : Prop where
  id_eq : n.id = i
  name_eq : t.states[i]? = some n.name
  isStart_eq : n.isStart = t.isStart i
  isFinal_eq : n.isFinal = t.isFinal i
  mem_edges_iff : ∀ x, x ∈ n.edges ↔ ∃ e ∈ columns, ∃ j, t.Follows i e.1 j ∧ x = ⟨j, .label e.2⟩

/-- The graph of a table: a node for each state, in their order. -/
structure Drawn (t : Table) (columns : List (String × Label)) (g : Graph) : Prop where
  labels : List.Forall₂ t.ColumnLabel t.alphabet columns
  size_eq : g.size = t.size
  nodeFor : ∀ i n, g.nodes[i]? = some n → NodeFor t columns i n

/-- The node of a state is found. -/
theorem Valid.exists_nodeAt (hv : t.Valid) {p : String} (hp : t.states[i]? = some p) :
    ∃ n, t.nodeAt columns (p, i) = .ok n ∧ NodeFor t columns i n := by
  have hi : i < t.size := (List.getElem?_eq_some_iff.1 hp).1
  obtain ⟨parts, hparts, hall⟩ :=
    exists_mapM_of fun e (_ : e ∈ columns) => hv.exists_edgesUnder hi e
  have hedges : t.edgesAt columns i = .ok parts.flatten := by
    rw [edgesAt, hparts]
    rfl
  refine ⟨⟨i, p, t.isStart i, t.isFinal i, parts.flatten⟩, ?_, rfl, hp, rfl, rfl, fun x => ?_⟩
  · rw [nodeAt, hedges]
    rfl
  rw [List.mem_flatten]
  constructor
  · rintro ⟨edges, hmem, hx⟩
    obtain ⟨e, he, hunder⟩ := forall₂_mem_right hall hmem
    exact ⟨e, he, (hunder x).1 hx⟩
  · rintro ⟨e, he, hx⟩
    obtain ⟨edges, hmem, hunder⟩ := forall₂_mem_left hall he
    exact ⟨edges, hmem, (hunder x).2 hx⟩

theorem NodeFor.nodeOf (h : NodeFor t columns i n)
    (hlabels : List.Forall₂ t.ColumnLabel t.alphabet columns) : NodeOf t i n := by
  refine ⟨h.isStart_eq, h.isFinal_eq, fun c j => ?_⟩
  simp only [reads_iff_column hlabels, h.mem_edges_iff]
  constructor
  · rintro ⟨x, ⟨e, he, j, hj, rfl⟩, hreads, rfl⟩
    exact ⟨e, he, reads_label.symm.trans hreads, hj⟩
  · rintro ⟨e, he, hreads, hj⟩
    exact ⟨_, ⟨e, he, j, hj, rfl⟩, reads_label.trans hreads, rfl⟩

theorem Drawn.graphOf (h : Drawn t columns g) : GraphOf t g :=
  ⟨h.size_eq, fun i n hn => (h.nodeFor i n hn).nodeOf h.labels⟩

/-- The graph of a table is drawn from its columns. -/
theorem Valid.exists_drawn (hv : t.Valid)
    (h : ∀ symbol ∈ t.symbols, ∃ l, Label.ofText symbol = .ok l) :
    ∃ columns g, Graph.ofTable t = .ok g ∧ Drawn t columns g := by
  obtain ⟨columns, hcolumns, hlabels⟩ := exists_columns h
  have hnode : ∀ s ∈ t.states.zipIdx, ∃ n, t.nodeAt columns s = .ok n ∧ NodeFor t columns s.2 n :=
    fun s hs => hv.exists_nodeAt (List.mem_zipIdx_iff_getElem?.1 hs)
  obtain ⟨nodes, hnodes, hall⟩ := exists_mapM_of hnode
  refine ⟨columns, (Graph.mk nodes []).snapshot
    s!"built from table: {t.size} states, {t.alphabet.length} symbols", ?_, hlabels, ?_,
    fun i n hn => ?_⟩
  · rw [Graph.ofTable, validate_eq_ok_iff.2 hv, hcolumns]
    change (t.states.zipIdx.mapM (t.nodeAt columns) >>= _) = _
    rw [hnodes]
    rfl
  · have hlen := hall.length_eq
    rw [List.length_zipIdx] at hlen
    exact hlen.symm
  · obtain ⟨⟨p, k⟩, hk, hnodeFor⟩ := forall₂_getElem?_right hall hn
    rw [List.getElem?_zipIdx, Option.map_eq_some_iff] at hk
    obtain ⟨q, -, he⟩ := hk
    cases he
    rwa [Nat.zero_add] at hnodeFor

/-- The graph of a table is found. -/
theorem Valid.exists_ofTable (hv : t.Valid)
    (h : ∀ symbol ∈ t.symbols, ∃ l, Label.ofText symbol = .ok l) :
    ∃ g, Graph.ofTable t = .ok g ∧ GraphOf t g := by
  obtain ⟨columns, g, hg, hdrawn⟩ := hv.exists_drawn h
  exact ⟨g, hg, hdrawn.graphOf⟩

/-- A table with a graph makes sense, and its columns are labels. -/
theorem of_ofTable (h : Graph.ofTable t = .ok g) :
    t.Valid ∧ ∀ symbol ∈ t.symbols, ∃ l, Label.ofText symbol = .ok l := by
  obtain ⟨⟨⟩, hvalid, h⟩ := bind_eq_ok_iff.1 h
  obtain ⟨columns, hcolumns, -⟩ := bind_eq_ok_iff.1 h
  refine ⟨validate_eq_ok_iff.1 hvalid, fun symbol hs => ?_⟩
  obtain ⟨hs, hm⟩ := mem_symbols_iff.1 hs
  have hmarker : ¬ t.isMarker symbol = true := fun he => hm (of_decide_eq_true he)
  obtain ⟨e, -, he⟩ := forall₂_mem_left (mapM_eq_ok_iff.1 hcolumns) hs
  rw [if_neg hmarker] at he
  obtain ⟨l, hl, -⟩ := map_eq_ok_iff.1 he
  exact ⟨l, hl⟩

end Table

/-! ## The walk -/

/-- At most one state follows another by reading a character. -/
def Table.Functional (t : Table) : Prop :=
  ∀ i c j k, t.Reads i c j → t.Reads i c k → j = k

theorem NodeOf.reads_of_find? {e : Edge} (h : NodeOf t i n)
    (he : n.edges.find? (·.reads {} c) = some e) : t.Reads i c e.target := by
  have hc : e.reads {} c = true := by simpa using List.find?_some he
  exact (h.reads_iff c e.target).1 ⟨e, List.mem_of_find?_eq_some he, hc, rfl⟩

theorem NodeOf.not_reads_of_find? (h : NodeOf t i n) (hnone : n.edges.find? (·.reads {} c) = none) :
    ¬ t.Reads i c j := by
  intro hreads
  obtain ⟨e, he, hc, -⟩ := (h.reads_iff c j).2 hreads
  exact List.find?_eq_none.1 hnone e he hc

/-- A walk from a node decides whether the input leads to a final state. -/
theorem GraphOf.exists_walkFrom (h : GraphOf t g) (hf : t.Functional)
    (hm : ∀ state, t.targets state t.marker = []) (hn : g.nodes[i]? = some n) (position : Nat)
    (input : List Char) :
    ∃ run, g.walkFrom {} n position input = .ok run ∧
      (run.accepted = true ↔ ∃ k ∈ t.finals, t.arrows.Path i input k) := by
  induction input generalizing i n position with
  | nil =>
    refine ⟨_, rfl, ?_⟩
    show n.isFinal = true ↔ _
    rw [(h.nodeOf i n hn).isFinal_eq, isFinal, decide_eq_true_eq]
    constructor
    · exact fun hi => ⟨i, hi, .nil⟩
    · rintro ⟨k, hk, hp⟩
      rwa [eq_of_reaches hm hp]
  | cons c rest ih =>
    simp only [Graph.walkFrom, path_cons_iff hm]
    have hnode := h.nodeOf i n hn
    split
    · rename_i hnone
      refine ⟨_, rfl, ?_⟩
      refine iff_of_false Bool.false_ne_true ?_
      rintro ⟨k, -, j, hreads, -⟩
      exact hnode.not_reads_of_find? hnone hreads
    · rename_i e he
      have hreads := hnode.reads_of_find? he
      obtain ⟨next, hnext⟩ := h.exists_node hreads.lt.2
      obtain ⟨run, hrun, haccepted⟩ := ih hnext (position + 1)
      rw [Graph.node?, hnext]
      refine ⟨_, map_eq_ok_iff.2 ⟨run, hrun, rfl⟩, haccepted.trans ?_⟩
      -- the first edge that matches is as good as any other
      constructor
      · rintro ⟨k, hk, hp⟩
        exact ⟨k, hk, e.target, hreads, hp⟩
      · rintro ⟨k, hk, j, hj, hp⟩
        obtain rfl := hf i c j e.target hj hreads
        exact ⟨k, hk, hp⟩

theorem GraphOf.mem_filter_iff {f : Node → Bool} {s : IndexSet}
    (h : ∀ i n, g.nodes[i]? = some n → f n = decide (i ∈ s)) :
    n ∈ g.nodes.filter f ↔ ∃ i ∈ s, g.nodes[i]? = some n := by
  rw [List.mem_filter, List.mem_iff_getElem?]
  constructor
  · rintro ⟨⟨i, hi⟩, hf⟩
    rw [h i n hi] at hf
    exact ⟨i, of_decide_eq_true hf, hi⟩
  · rintro ⟨i, hs, hi⟩
    refine ⟨⟨i, hi⟩, ?_⟩
    rw [h i n hi]
    exact decide_eq_true hs

theorem GraphOf.mem_startNodes_iff (h : GraphOf t g) :
    n ∈ g.startNodes ↔ ∃ i ∈ t.starts, g.nodes[i]? = some n :=
  mem_filter_iff fun i n hi => (h.nodeOf i n hi).isStart_eq

theorem GraphOf.mem_finalNodes_iff (h : GraphOf t g) :
    n ∈ g.finalNodes ↔ ∃ i ∈ t.finals, g.nodes[i]? = some n :=
  mem_filter_iff fun i n hi => (h.nodeOf i n hi).isFinal_eq

theorem mem_language_iff_of_start {x : Nat} (hstarts : t.starts = .singleton x) {w : List Char} :
    w ∈ t.language ↔ ∃ k ∈ t.finals, t.arrows.Path x w k := by
  have hinitial : t.initial = .singleton x := by
    rw [Table.initial, hstarts]
    rfl
  constructor
  · rintro ⟨i, k, hi, hk, hp⟩
    rw [hinitial, OrderedSet.mem_singleton] at hi
    exact ⟨k, hk, hi ▸ hp⟩
  · rintro ⟨k, hk, hp⟩
    exact ⟨x, k, hinitial ▸ OrderedSet.mem_singleton.2 rfl, hk, hp⟩

/-- A walk starts from the only start node. -/
theorem GraphOf.exists_walk_eq (h : GraphOf t g) (hv : t.Valid) {x : Nat}
    (hstarts : t.starts = .singleton x) (hfinals : t.finals.isEmpty = false) :
    ∃ start, g.nodes[x]? = some start ∧
      ∀ input : String, g.walk input {} = g.walkFrom {} start 0 input.toList := by
  have hx : x ∈ t.starts := hstarts ▸ OrderedSet.mem_singleton.2 rfl
  obtain ⟨start, hstart⟩ := h.exists_node (hv.starts_lt x hx)
  -- the first start node is the one at the only start position
  have hfirst : ∃ rest, g.startNodes = start :: rest := by
    cases hnodes : g.startNodes with
    | nil =>
      have hmem := h.mem_startNodes_iff.2 ⟨x, hx, hstart⟩
      rw [hnodes] at hmem
      cases hmem
    | cons n rest =>
      obtain ⟨i, hi, hn⟩ := h.mem_startNodes_iff.1 (hnodes ▸ List.mem_cons_self)
      rw [hstarts, OrderedSet.mem_singleton] at hi
      rw [hi, hstart] at hn
      exact ⟨rest, by rw [Option.some.inj hn]⟩
  obtain ⟨rest, hfirst⟩ := hfirst
  have hsome : g.finalNodes.isEmpty = false := by
    obtain ⟨k, hk⟩ := List.exists_mem_of_ne_nil _ (List.isEmpty_eq_false_iff.1 hfinals)
    obtain ⟨n, hn⟩ := h.exists_node (hv.finals_lt k hk)
    exact List.isEmpty_eq_false_iff.2 (List.ne_nil_of_mem (h.mem_finalNodes_iff.2 ⟨k, hk, hn⟩))
  refine ⟨start, hstart, fun input => ?_⟩
  rw [Graph.walk, hfirst]
  simp only [hsome, Bool.false_eq_true, if_false]

/-- A walk from the only start node decides whether the table has the word. -/
theorem GraphOf.exists_walk (h : GraphOf t g) (hv : t.Valid) (hf : t.Functional)
    (hm : ∀ state, t.targets state t.marker = []) {x : Nat} (hstarts : t.starts = .singleton x)
    (hfinals : t.finals.isEmpty = false) (input : String) :
    ∃ run, g.walk input {} = .ok run ∧ (run.accepted = true ↔ input.toList ∈ t.language) := by
  obtain ⟨start, hstart, hwalk⟩ := h.exists_walk_eq hv hstarts hfinals
  obtain ⟨run, hrun, haccepted⟩ := h.exists_walkFrom hf hm hstart 0 input.toList
  exact ⟨run, (hwalk input).trans hrun, haccepted.trans (mem_language_iff_of_start hstarts).symm⟩

/-! ## Where a walk stops -/

/-- How a walk stops on the state where the rest of its input is left. -/
inductive Halts (t : Table) (k position : Nat) : List Char → Option Rejection → Prop
  | accepted : k ∈ t.finals → Halts t k position [] none
  | notFinal {node : Nat} : k ∉ t.finals → Halts t k position [] (some (.notFinal node))
  | noTransition {node : Nat} {c : Char} {rest : List Char} : (∀ j, ¬ t.Reads k c j) →
    Halts t k position (c :: rest) (some (.noTransition node c position))

/-- A walk reads a start of its input, which leads to the state where the walk stops. -/
theorem GraphOf.exists_halt (h : GraphOf t g) (hn : g.nodes[i]? = some n) {position : Nat}
    {input : List Char} {run : Run} (hrun : g.walkFrom {} n position input = .ok run) :
    ∃ k rest, input = run.steps.map (·.char) ++ rest ∧
      t.arrows.Path i (run.steps.map (·.char)) k ∧ k < t.size ∧
      Halts t k (position + run.steps.length) rest run.rejection := by
  have hi : i < t.size := Nat.lt_of_lt_of_eq (List.getElem?_eq_some_iff.1 hn).1 h.size_eq
  have hnode := h.nodeOf i n hn
  induction input generalizing i n position run with
  | nil =>
    cases hrun
    refine ⟨i, [], rfl, .nil, hi, ?_⟩
    by_cases hfinal : n.isFinal = true
    · rw [if_pos hfinal]
      exact .accepted (of_decide_eq_true (hnode.isFinal_eq.symm.trans hfinal))
    · rw [if_neg hfinal]
      exact .notFinal fun hk => hfinal (hnode.isFinal_eq.trans (decide_eq_true hk))
  | cons c input ih =>
    rw [Graph.walkFrom] at hrun
    split at hrun
    · rename_i hnone
      cases hrun
      exact ⟨i, c :: input, rfl, .nil, hi, .noTransition fun j => hnode.not_reads_of_find? hnone⟩
    · rename_i e he
      have hreads := hnode.reads_of_find? he
      obtain ⟨next, hnext⟩ := h.exists_node hreads.lt.2
      rw [Graph.node?, hnext] at hrun
      obtain ⟨tail, htail, rfl⟩ := map_eq_ok_iff.1 hrun
      obtain ⟨k, rest, hrest, hpath, hk, hhalts⟩ :=
        ih hnext htail hreads.lt.2 (h.nodeOf _ next hnext)
      refine ⟨k, rest, congrArg (c :: ·) hrest, ?_, hk, ?_⟩
      · exact .cons (arrows_singleton_iff.2 hreads) hpath
      · rw [List.length_cons, Nat.add_comm tail.steps.length, ← Nat.add_assoc]
        exact hhalts

/-- From where a word leads, the rest of a longer word leads on. -/
theorem Table.Functional.path_append_iff (hf : t.Functional)
    (hm : ∀ state, t.targets state t.marker = []) {k : Nat} {u v : List Char}
    (h : t.arrows.Path i u k) : t.arrows.Path i (u ++ v) j ↔ t.arrows.Path k v j := by
  refine ⟨fun hp => ?_, fun hp => h.append hp⟩
  induction u generalizing i with
  | nil => exact eq_of_reaches hm h ▸ hp
  | cons c u ih =>
    obtain ⟨a, ha, h⟩ := (path_cons_iff hm).1 h
    obtain ⟨b, hb, hp⟩ := (path_cons_iff hm).1 hp
    obtain rfl := hf i c a b ha hb
    exact ih h hp

end Acceptor
