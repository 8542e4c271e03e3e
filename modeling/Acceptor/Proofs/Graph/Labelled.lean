/-
Graphs whose edges carry labels, and their tables. A graph is a table where its names tell its
nodes apart and the texts of its labels tell these apart (`Labelled`): then the table stores a move
exactly for each edge (`Labelled.follows_iff`) and moves as the graph does
(`Labelled.arrows_tableOf`). Main statement: running the table of a graph answers whether a path of
the graph spells the input (`ofGraph_accepts_iff`).
-/
import Acceptor.Proofs.Graph.Meaning
import Acceptor.Proofs.Pipeline

namespace Acceptor

open Table

variable {g g' : Graph} {t : Table} {i j : Nat} {n : Node} {state symbol target p q a : String}

theorem Label.isEpsilon_iff {l : Label} : l.isEpsilon = true ↔ l = .epsilon := by
  cases l <;> simp [Label.isEpsilon]

/-! ## Storing the edges -/

namespace Table

theorem mem_targets_addTarget : q ∈ (t.addTarget state symbol target).targets p a ↔
    (p = state ∧ a = symbol ∧ q = target) ∨ q ∈ t.targets p a := by
  rw [addTarget, targets_setTargets]
  by_cases h : p = state ∧ a = symbol
  · obtain ⟨rfl, rfl⟩ := h
    rw [if_pos ⟨rfl, rfl⟩]
    split
    · rename_i hmem
      constructor
      · exact .inr
      · rintro (⟨-, -, rfl⟩ | hq)
        · exact hmem
        · exact hq
    · rw [List.mem_append, List.mem_singleton]
      constructor
      · rintro (hq | rfl)
        · exact .inr hq
        · exact .inl ⟨rfl, rfl, rfl⟩
      · rintro (⟨-, -, rfl⟩ | hq)
        · exact .inr rfl
        · exact .inl hq
  · rw [if_neg h]
    constructor
    · exact .inr
    · rintro (⟨hp, ha, -⟩ | hq)
      · exact absurd ⟨hp, ha⟩ h
      · exact hq

theorem Valid.addTarget (h : t.Valid) (hs : state ∈ t.states) (ha : symbol ∈ t.alphabet)
    (ht : target ∈ t.states) : (t.addTarget state symbol target).Valid := by
  refine h.setTargets hs ha fun q hq => ?_
  split at hq
  · exact (h.of_mem_targets hq).2.2
  · rcases List.mem_append.1 hq with hq | hq
    · exact (h.of_mem_targets hq).2.2
    · rw [List.mem_singleton.1 hq]
      exact ht

/-- Storing edges changes the moves only. -/
theorem foldl_addEdge_eq (es : List (Nat × Edge)) :
    es.foldl (addEdge g) t = { t with moves := (es.foldl (addEdge g) t).moves } := by
  induction es generalizing t with
  | nil => rfl
  | cons e es ih => exact ih (t := addEdge g t e)

theorem mem_targets_foldl_addEdge {es : List (Nat × Edge)} :
    q ∈ (es.foldl (addEdge g) t).targets p a ↔ q ∈ t.targets p a ∨ ∃ e ∈ es,
      p = g.nameOf e.1 ∧ a = e.2.inscription.text ∧ q = g.nameOf e.2.target := by
  induction es generalizing t with
  | nil => simp
  | cons e es ih =>
    rw [List.foldl_cons, ih, addEdge, mem_targets_addTarget, List.exists_mem_cons_iff]
    tauto

theorem Valid.foldl_addEdge {es : List (Nat × Edge)} (h : t.Valid)
    (hes : ∀ e ∈ es, g.nameOf e.1 ∈ t.states ∧ e.2.inscription.text ∈ t.alphabet ∧
      g.nameOf e.2.target ∈ t.states) : (es.foldl (addEdge g) t).Valid := by
  induction es generalizing t with
  | nil => exact h
  | cons e es ih =>
    obtain ⟨⟨hs, ha, ht⟩, hes⟩ := List.forall_mem_cons.1 hes
    exact ih (h.addTarget hs ha ht) hes

/-- The columns of the edges are found where all of them carry labels. -/
theorem exists_foldlM_addColumn {es : List (Nat × Edge)} (columns : List String)
    (hes : ∀ e ∈ es, ∃ l, e.2.inscription = .label l) :
    ∃ columns', es.foldlM (addColumn g) columns = .ok columns' ∧ ∀ s, s ∈ columns' ↔
      s ∈ columns ∨ ∃ e ∈ es, ∃ l, e.2.inscription = .label l ∧ l ≠ .epsilon ∧ l.text = s := by
  induction es generalizing columns with
  | nil => exact ⟨columns, rfl, by simp⟩
  | cons e es ih =>
    obtain ⟨⟨l, hl⟩, hes⟩ := List.forall_mem_cons.1 hes
    have hcolumn : ∃ columns₁, addColumn g columns e = .ok columns₁ ∧
        ∀ s, s ∈ columns₁ ↔ s ∈ columns ∨ l ≠ .epsilon ∧ l.text = s := by
      rw [addColumn, hl]
      refine ⟨_, rfl, fun s => ?_⟩
      split
      · rename_i hseen
        rw [Bool.or_eq_true, decide_eq_true_eq, Label.isEpsilon_iff] at hseen
        refine ⟨.inl, ?_⟩
        rintro (hs | ⟨hne, rfl⟩)
        · exact hs
        · exact hseen.resolve_left hne
      · rename_i hnew
        rw [Bool.or_eq_true, decide_eq_true_eq, Label.isEpsilon_iff, not_or] at hnew
        rw [List.mem_append, List.mem_singleton, eq_comm (a := s)]
        exact or_congr_right (and_iff_right hnew.1).symm
    obtain ⟨columns₁, hok, hmem⟩ := hcolumn
    obtain ⟨columns', hok', hmem'⟩ := ih columns₁ hes
    refine ⟨columns', ?_, fun s => ?_⟩
    · rw [List.foldlM_cons, hok]
      exact hok'
    · rw [hmem', hmem, List.exists_mem_cons_iff, hl, or_assoc]
      simp

end Table

namespace Graph

/-! ## Nodes in their places -/

/-- Each node stands at the position that it names. -/
def InPlace (g : Graph) : Prop :=
  g.nodes.map (·.id) = List.range g.size

/-- The graphs that come about by the operations on graphs. -/
inductive Built : Graph → Prop
  | empty : Built .empty
  | addNamed {g : Graph} {name : String} : Built g → Built (g.addNamed name)
  | addEdge {g g' : Graph} {source target : Nat} {s : Inscription} :
      Built g → g.addEdge source target s = .ok g' → Built g'
  | removeEdge {g g' : Graph} {source index : Nat} :
      Built g → g.removeEdge source index = .ok g' → Built g'
  | markStart {g g' : Graph} {id : Nat} : Built g → g.markStart id = .ok g' → Built g'
  | markFinal {g g' : Graph} {id : Nat} : Built g → g.markFinal id = .ok g' → Built g'
  | snapshot {g : Graph} {comment : String} : Built g → Built (g.snapshot comment)

theorem inPlace_of_id_eq (h : ∀ (i : Nat) (n : Node), g.nodes[i]? = some n → n.id = i) :
    g.InPlace := by
  refine List.ext_getElem (by rw [List.length_map, List.length_range, size]) fun k hk _ => ?_
  rw [List.length_map] at hk
  rw [List.getElem_map, List.getElem_range]
  exact h k _ (List.getElem?_eq_getElem hk)

theorem InPlace.id_eq (h : g.InPlace) (hn : g.nodes[i]? = some n) : n.id = i := by
  have hi : i < g.size := (List.getElem?_eq_some_iff.1 hn).1
  have hid : (g.nodes.map (·.id))[i]? = some n.id := by rw [List.getElem?_map, hn]; rfl
  rw [h, List.getElem?_range hi] at hid
  exact (Option.some.inj hid).symm

theorem InPlace.addNamed (h : g.InPlace) (name : String) : (g.addNamed name).InPlace := by
  rw [InPlace, addNamed_nodes, List.map_append, h, size_addNamed, List.range_succ]
  rfl

theorem InPlace.modifyNode {id : Nat} {f : Node → Node} (h : g.InPlace)
    (hg : g.modifyNode id f = .ok g') (hf : ∀ n, (f n).id = n.id) : g'.InPlace := by
  have hids : g'.nodes.map (·.id) = g.nodes.map (·.id) := by
    refine List.ext_getElem? fun k => ?_
    rw [List.getElem?_map, List.getElem?_map, getElem?_of_modifyNode hg, Option.map_map]
    refine congrArg (Option.map · _) (funext fun n => ?_)
    change (if id = k then f n else n).id = n.id
    split
    · exact hf n
    · rfl
  rw [InPlace, hids, h, size_of_modifyNode hg]

/-- Operations on graphs keep the nodes in their places. -/
theorem Built.inPlace (h : g.Built) : g.InPlace := by
  induction h with
  | empty => rfl
  | addNamed _ ih => exact ih.addNamed _
  | addEdge _ hg ih => exact ih.modifyNode hg fun _ => rfl
  | removeEdge _ hg ih =>
    obtain ⟨-, -, -, -, hg⟩ := removeEdge_eq_ok_iff.1 hg
    exact ih.modifyNode hg fun _ => rfl
  | markStart _ hg ih => exact ih.modifyNode hg fun _ => rfl
  | markFinal _ hg ih => exact ih.modifyNode hg fun _ => rfl
  | snapshot _ ih => exact ih

theorem InPlace.mem_edges_iff (h : g.InPlace) {e : Edge} :
    (i, e) ∈ g.edges ↔ ∃ n, g.nodes[i]? = some n ∧ e ∈ n.edges := by
  rw [edges, List.mem_flatMap]
  constructor
  · rintro ⟨n, hn, he⟩
    obtain ⟨e', he', heq⟩ := List.mem_map.1 he
    obtain ⟨k, hk⟩ := List.mem_iff_getElem?.1 hn
    obtain ⟨hid, rfl⟩ := Prod.mk.inj heq
    rw [h.id_eq hk] at hid
    exact ⟨n, hid ▸ hk, he'⟩
  · rintro ⟨n, hn, he⟩
    refine ⟨n, List.mem_of_getElem? hn, List.mem_map.2 ⟨e, he, ?_⟩⟩
    rw [h.id_eq hn]

/-- The positions of the nodes with a mark. -/
theorem InPlace.mem_ofList_filter_iff (h : g.InPlace) {f : Node → Bool} :
    i ∈ OrderedSet.ofList ((g.nodes.filter f).map (·.id)) ↔
      ∃ n, g.nodes[i]? = some n ∧ f n = true := by
  rw [OrderedSet.mem_ofList, List.mem_map]
  constructor
  · rintro ⟨n, hn, rfl⟩
    obtain ⟨hn, hmark⟩ := List.mem_filter.1 hn
    obtain ⟨k, hk⟩ := List.mem_iff_getElem?.1 hn
    exact ⟨n, by rw [h.id_eq hk, hk], hmark⟩
  · rintro ⟨n, hn, hmark⟩
    exact ⟨n, List.mem_filter.2 ⟨List.mem_of_getElem? hn, hmark⟩, h.id_eq hn⟩

theorem nameOf_eq (hn : g.nodes[i]? = some n) : g.nameOf i = n.name := by
  rw [nameOf, node?, hn]

/-! ## The table -/

/-- The table of a graph before its edges are stored. -/
def tableBase (g : Graph) (columns : List String) : Table :=
  ofStates (g.nodes.map (·.name)) (columns ++ [usualMarker]) usualMarker

/-- The table of a graph with the given columns. -/
def tableOf (g : Graph) (columns : List String) : Table :=
  { g.edges.foldl (Table.addEdge g) (g.tableBase columns) with
    starts := .ofList (g.startNodes.map (·.id)), finals := .ofList (g.finalNodes.map (·.id)) }

theorem states_tableOf (columns : List String) :
    (g.tableOf columns).states = g.nodes.map (·.name) :=
  (congrArg Table.states (foldl_addEdge_eq g.edges)).trans rfl

theorem alphabet_tableOf (columns : List String) :
    (g.tableOf columns).alphabet = columns ++ [usualMarker] :=
  (congrArg Table.alphabet (foldl_addEdge_eq g.edges)).trans rfl

theorem marker_tableOf (columns : List String) :
    (g.tableOf columns).marker = Label.epsilon.text :=
  (congrArg Table.marker (foldl_addEdge_eq g.edges)).trans rfl

/-- The columns are the texts of the labels that read something. -/
def IsColumns (g : Graph) (columns : List String) : Prop :=
  ∀ s, s ∈ columns ↔ ∃ e ∈ g.edges, ∃ l, e.2.inscription = .label l ∧ l ≠ .epsilon ∧ l.text = s

variable {columns : List String}

theorem mem_symbols_tableOf {s : String} :
    s ∈ (g.tableOf columns).symbols ↔ s ∈ columns ∧ s ≠ usualMarker := by
  rw [mem_symbols_iff, alphabet_tableOf, marker_tableOf, List.mem_append, List.mem_singleton]
  constructor
  · rintro ⟨hs, hne⟩
    exact ⟨hs.resolve_right hne, hne⟩
  · rintro ⟨hs, hne⟩
    exact ⟨.inl hs, hne⟩

/-- The text of a label that reads something is not the marker. -/
theorem text_ne_usualMarker {l : Label} (hw : l.WellFormed) (hl : l ≠ .epsilon) :
    l.text ≠ usualMarker :=
  fun he => hl (Label.eq_of_text_eq (m := .epsilon) hw trivial he)

/-! ## Graphs with labels -/

/-- A graph whose nodes are told apart by their names and whose edges lead to nodes and carry
labels that are read back from their texts. -/
structure Labelled (g : Graph) : Prop where
  inPlace : g.InPlace
  nodup : (g.nodes.map (·.name)).Nodup
  target_lt : ∀ n ∈ g.nodes, ∀ e ∈ n.edges, e.target < g.size
  label : ∀ n ∈ g.nodes, ∀ e ∈ n.edges, ∃ l : Label, e.inscription = .label l ∧
    Label.ofText l.text = .ok l

namespace Labelled

theorem exists_target (h : g.Labelled) (hn : g.nodes[i]? = some n) {e : Edge} (he : e ∈ n.edges) :
    ∃ n', g.nodes[e.target]? = some n' :=
  ⟨_, List.getElem?_eq_getElem (h.target_lt n (List.mem_of_getElem? hn) e he)⟩

theorem exists_label (h : g.Labelled) (hn : g.nodes[i]? = some n) {e : Edge} (he : e ∈ n.edges) :
    ∃ l : Label, e.inscription = .label l ∧ l.WellFormed := by
  obtain ⟨l, hl, htext⟩ := h.label n (List.mem_of_getElem? hn) e he
  exact ⟨l, hl, Label.wellFormed_of_ofText htext⟩

theorem mem_columns_iff (h : g.Labelled) (hc : g.IsColumns columns) {s : String} :
    s ∈ columns ↔ ∃ (i : Nat) (n : Node), g.nodes[i]? = some n ∧ ∃ e ∈ n.edges, ∃ l : Label,
      e.inscription = .label l ∧ l ≠ .epsilon ∧ l.text = s := by
  rw [hc s]
  constructor
  · rintro ⟨⟨i, e⟩, he, hl⟩
    obtain ⟨n, hn, he⟩ := h.inPlace.mem_edges_iff.1 he
    exact ⟨i, n, hn, e, he, hl⟩
  · rintro ⟨i, n, hn, e, he, hl⟩
    exact ⟨(i, e), h.inPlace.mem_edges_iff.2 ⟨n, hn, he⟩, hl⟩

theorem exists_columns (h : g.Labelled) :
    ∃ columns, g.edges.foldlM (addColumn g) [] = .ok columns ∧ g.IsColumns columns := by
  have hlabels : ∀ e ∈ g.edges, ∃ l, e.2.inscription = .label l := by
    rintro ⟨i, e⟩ he
    obtain ⟨n, hn, he⟩ := h.inPlace.mem_edges_iff.1 he
    obtain ⟨l, hl, -⟩ := h.exists_label hn he
    exact ⟨l, hl⟩
  obtain ⟨columns, hok, hmem⟩ := exists_foldlM_addColumn (g := g) [] hlabels
  refine ⟨columns, hok, fun s => ?_⟩
  rw [hmem]
  exact or_iff_right List.not_mem_nil

/-- The table of a graph is found. -/
theorem exists_tableOf (h : g.Labelled) :
    ∃ columns, Table.ofGraph g = .ok (g.tableOf columns) ∧ g.IsColumns columns := by
  obtain ⟨columns, hok, hc⟩ := h.exists_columns
  refine ⟨columns, ?_, hc⟩
  have hnames : firstRepeat? [] (g.nodes.map (·.name)) = none :=
    firstRepeat?_eq_none_iff.2 ⟨h.nodup, fun _ _ => List.not_mem_nil⟩
  rw [ofGraph, hnames]
  change (g.edges.foldlM (addColumn g) [] >>= _) = _
  rw [hok]
  rfl

theorem mem_starts_iff (h : g.Labelled) :
    i ∈ (g.tableOf columns).starts ↔ ∃ n, g.nodes[i]? = some n ∧ n.isStart = true :=
  h.inPlace.mem_ofList_filter_iff

theorem mem_finals_iff (h : g.Labelled) :
    i ∈ (g.tableOf columns).finals ↔ ∃ n, g.nodes[i]? = some n ∧ n.isFinal = true :=
  h.inPlace.mem_ofList_filter_iff

theorem valid_tableOf (h : g.Labelled) (hc : g.IsColumns columns) :
    (g.tableOf columns).Valid := by
  have hname : ∀ {k : Nat} {n : Node}, g.nodes[k]? = some n →
      g.nameOf k ∈ (g.tableBase columns).states := by
    intro k n hn
    rw [nameOf_eq hn]
    exact List.mem_map.2 ⟨n, List.mem_of_getElem? hn, rfl⟩
  have hbase : (g.tableBase columns).Valid :=
    ⟨h.nodup, List.forall_mem_nil _, List.forall_mem_nil _, List.forall_mem_nil _,
      List.forall_mem_nil _, List.forall_mem_nil _⟩
  have hstored : (g.edges.foldl (Table.addEdge g) (g.tableBase columns)).Valid := by
    refine hbase.foldl_addEdge fun ⟨k, e⟩ he => ?_
    obtain ⟨n, hn, hmem⟩ := h.inPlace.mem_edges_iff.1 he
    obtain ⟨n', hn'⟩ := h.exists_target hn hmem
    refine ⟨hname hn, ?_, hname hn'⟩
    obtain ⟨l, hl, -⟩ := h.exists_label hn hmem
    by_cases heps : l = .epsilon
    · rw [hl, heps]
      exact List.mem_append_right _ List.mem_cons_self
    · exact List.mem_append_left _ ((hc _).2 ⟨(k, e), he, l, hl, heps, by rw [hl]; rfl⟩)
  have hsize : (g.tableOf columns).size = g.nodes.length := by
    rw [Table.size, states_tableOf, List.length_map]
  refine ⟨hstored.nodup, fun i hi => ?_, fun i hi => ?_, hstored.rows, hstored.columns,
    hstored.targets⟩
  · obtain ⟨n, hn, -⟩ := h.mem_starts_iff.1 hi
    exact hsize ▸ (List.getElem?_eq_some_iff.1 hn).1
  · obtain ⟨n, hn, -⟩ := h.mem_finals_iff.1 hi
    exact hsize ▸ (List.getElem?_eq_some_iff.1 hn).1

/-- A node is found by its name alone. -/
theorem eq_of_name_eq (h : g.Labelled) {n' : Node} (hn : g.nodes[i]? = some n)
    (hn' : g.nodes[j]? = some n') (he : n.name = n'.name) : i = j := by
  have hi : (g.nodes.map (·.name))[i]? = some n.name := by rw [List.getElem?_map, hn]; rfl
  have hj : (g.nodes.map (·.name))[j]? = some n.name := by rw [List.getElem?_map, hn', he]; rfl
  exact getElem?_states_inj (t := g.tableBase []) h.nodup hi hj

/-- A state follows another in the column that is the text of an edge between their nodes. -/
theorem follows_iff (h : g.Labelled) : (g.tableOf columns).Follows i a j ↔
    ∃ n, g.nodes[i]? = some n ∧ ∃ e ∈ n.edges, e.inscription.text = a ∧ e.target = j := by
  have hmem : ∀ p a q, q ∈ (g.tableOf columns).targets p a ↔ ∃ e ∈ g.edges,
      p = g.nameOf e.1 ∧ a = e.2.inscription.text ∧ q = g.nameOf e.2.target := by
    intro p a q
    exact mem_targets_foldl_addEdge.trans (or_iff_right List.not_mem_nil)
  simp only [Follows, states_tableOf, hmem, List.getElem?_map, Option.map_eq_some_iff]
  constructor
  · rintro ⟨p, q, ⟨n, hn, rfl⟩, ⟨⟨k, e⟩, he, hk, rfl, ht⟩, n', hn', rfl⟩
    obtain ⟨m, hm, hedge⟩ := h.inPlace.mem_edges_iff.1 he
    obtain ⟨m', hm'⟩ := h.exists_target hm hedge
    rw [nameOf_eq hm] at hk
    rw [nameOf_eq hm'] at ht
    obtain rfl := h.eq_of_name_eq hn hm hk
    exact ⟨m, hm, e, hedge, rfl, (h.eq_of_name_eq hn' hm' ht).symm⟩
  · rintro ⟨n, hn, e, he, rfl, rfl⟩
    obtain ⟨n', hn'⟩ := h.exists_target hn he
    have hedge := h.inPlace.mem_edges_iff.2 ⟨n, hn, he⟩
    exact ⟨_, _, ⟨n, hn, rfl⟩, ⟨(i, e), hedge, (nameOf_eq hn).symm, rfl, (nameOf_eq hn').symm⟩,
      n', hn', rfl⟩

/-- The table has the moves of the graph. -/
theorem arrows_tableOf (h : g.Labelled) (hc : g.IsColumns columns) :
    (g.tableOf columns).arrows = arrows .words g.nodes := by
  funext i u j
  rw [eq_iff_iff]
  constructor
  · rintro (⟨rfl, hf⟩ | ⟨c, rfl, s, -, l', hl', hc, hf⟩)
    · obtain ⟨n, hn, e, he, htext, rfl⟩ := h.follows_iff.1 hf
      obtain ⟨l, hl, hw⟩ := h.exists_label hn he
      rw [hl, marker_tableOf] at htext
      obtain rfl := Label.eq_of_text_eq (m := .epsilon) hw trivial htext
      exact ⟨n, hn, e, he, rfl, by rw [hl]; exact Language.nil_mem_one⟩
    · obtain ⟨n, hn, e, he, rfl, rfl⟩ := h.follows_iff.1 hf
      obtain ⟨l, hl, hw⟩ := h.exists_label hn he
      rw [hl] at hl'
      cases (Label.ofText_text hw).symm.trans hl'
      have hne : l' ≠ .epsilon := by
        rintro rfl
        cases hc
      exact ⟨n, hn, e, he, rfl, by rw [hl]; exact (Label.mem_language_iff hne).2 ⟨c, rfl, hc⟩⟩
  · rintro ⟨n, hn, e, he, rfl, hu⟩
    obtain ⟨l, hl, hw⟩ := h.exists_label hn he
    rw [hl] at hu
    by_cases hne : l = .epsilon
    · subst hne
      exact .inl ⟨hu, h.follows_iff.2 ⟨n, hn, e, he, by rw [hl, marker_tableOf]; rfl, rfl⟩⟩
    · obtain ⟨c, rfl, hc'⟩ := (Label.mem_language_iff hne).1 hu
      refine .inr ⟨c, rfl, l.text, mem_symbols_tableOf.2 ⟨?_, ?_⟩, l, ?_, hc', ?_⟩
      · exact (h.mem_columns_iff hc).2 ⟨i, n, hn, e, he, l, hl, hne, rfl⟩
      · exact text_ne_usualMarker hw hne
      · exact Label.ofText_text hw
      · exact h.follows_iff.2 ⟨n, hn, e, he, by rw [hl]; rfl, rfl⟩

theorem runnable_tableOf (h : g.Labelled) (hne : g.nodes ≠ []) (hc : g.IsColumns columns) :
    (g.tableOf columns).Runnable := by
  refine ⟨h.valid_tableOf hc, ?_, fun s hs => ?_⟩
  · rw [states_tableOf]
    exact fun he => hne (List.map_eq_nil_iff.1 he)
  · obtain ⟨i, n, hn, e, he, l, hl, -, rfl⟩ :=
      (h.mem_columns_iff hc).1 (mem_symbols_tableOf.1 hs).1
    obtain ⟨l', hl', hw⟩ := h.exists_label hn he
    cases hl.symm.trans hl'
    exact ⟨l, Label.ofText_text hw⟩

end Labelled

/-! ## Paths from start to end -/

/-- A node at which a path may start: a start node, or the first node where none is marked. -/
def StartsAt (g : Graph) (i : Nat) : Prop :=
  (∃ n, g.nodes[i]? = some n ∧ n.isStart = true) ∨ (∀ n ∈ g.nodes, n.isStart = false) ∧ i = 0

/-- A final node. -/
def EndsAt (g : Graph) (i : Nat) : Prop :=
  ∃ n, g.nodes[i]? = some n ∧ n.isFinal = true

theorem Labelled.startsAt_iff (h : g.Labelled) :
    (g.tableOf columns).StartsAt i ↔ g.StartsAt i := by
  have hnone : (∀ k, ¬ k ∈ (g.tableOf columns).starts) ↔ ∀ n ∈ g.nodes, n.isStart = false := by
    simp only [h.mem_starts_iff]
    constructor
    · intro hall n hn
      obtain ⟨k, hk⟩ := List.mem_iff_getElem?.1 hn
      exact Bool.eq_false_iff.2 fun hs => hall k ⟨n, hk, hs⟩
    · rintro hall k ⟨n, hn, hs⟩
      rw [hall n (List.mem_of_getElem? hn)] at hs
      cases hs
  rw [Table.StartsAt, StartsAt, h.mem_starts_iff, hnone]

/-- The words of the table are those that paths of the graph spell. -/
theorem Labelled.mem_language_iff (h : g.Labelled) (hc : g.IsColumns columns) {w : List Char} :
    w ∈ (g.tableOf columns).language ↔
      ∃ i j, g.StartsAt i ∧ g.EndsAt j ∧ (arrows .words g.nodes).Path i w j := by
  have hstart : ∀ i, i ∈ (g.tableOf columns).initial ↔ g.StartsAt i :=
    fun i => Table.mem_initial_iff.trans h.startsAt_iff
  have hend : ∀ j, j ∈ (g.tableOf columns).finals ↔ g.EndsAt j := fun j => h.mem_finals_iff
  simp only [← hstart, ← hend, ← h.arrows_tableOf hc]
  exact Iff.rfl

/-- The table of a graph with nodes is found, makes sense and answers to every input whether a path
of the graph spells it, from a start node (the first node where none is marked) to a final node:
an edge whose label reads nothing adds nothing, any other edge one character that its label
reads. -/
theorem ofGraph_accepts_iff {g : Graph} (h : g.Labelled) (hne : g.nodes ≠ []) :
    ∃ t, Table.ofGraph g = .ok t ∧ t.validate = .ok () ∧ ∀ input : String,
      (t.accepts input = .ok true ↔
        ∃ i j, g.StartsAt i ∧ g.EndsAt j ∧ (arrows .words g.nodes).Path i input.toList j) ∧
      (t.accepts input = .ok false ↔
        ¬ ∃ i j, g.StartsAt i ∧ g.EndsAt j ∧ (arrows .words g.nodes).Path i input.toList j) := by
  obtain ⟨columns, hok, hc⟩ := h.exists_tableOf
  refine ⟨_, hok, validate_eq_ok_iff.2 (h.valid_tableOf hc), fun input => ?_⟩
  obtain ⟨answer, hanswer, hiff⟩ := (h.runnable_tableOf hne hc).decides_accepts input
  rw [hanswer, ← h.mem_language_iff hc, ← hiff]
  simp

/-- A graph without a start node, whose first two nodes reach each other without reading, once over
two edges. -/
def looping : Graph where
  nodes := [
    ⟨0, "p", false, false, [⟨1, .label .epsilon⟩, ⟨0, .label .any⟩, ⟨1, .label .epsilon⟩]⟩,
    ⟨1, "?", false, false,
      [⟨0, .label .epsilon⟩, ⟨2, .label (.oneOf ['-', '['])⟩, ⟨2, .label (.range '^' 'a')⟩]⟩,
    ⟨2, "", false, true, [⟨1, .label (.noneOf [⟨'a', 'c'⟩])⟩]⟩]
  history := []

theorem ofGraph_accepts_looping : ∃ t, Table.ofGraph looping = .ok t ∧ t.validate = .ok () ∧
    ∀ input : String,
      (t.accepts input = .ok true ↔ ∃ i j, looping.StartsAt i ∧ looping.EndsAt j ∧
        (arrows .words looping.nodes).Path i input.toList j) ∧
      (t.accepts input = .ok false ↔ ¬ ∃ i j, looping.StartsAt i ∧ looping.EndsAt j ∧
        (arrows .words looping.nodes).Path i input.toList j) := by
  have hlabels : ∀ n ∈ looping.nodes, ∀ e ∈ n.edges, ∃ l : Label, e.inscription = .label l ∧
      Label.ofText l.text = .ok l := by
    simp only [looping, List.mem_cons, List.not_mem_nil, or_false, forall_eq_or_imp, forall_eq,
      Inscription.label.injEq, exists_eq_left', Label.ofText_eq_ok_iff]
    decide +kernel
  exact ofGraph_accepts_iff ⟨rfl, by decide, by decide, hlabels⟩ (by decide)

end Graph

end Acceptor
