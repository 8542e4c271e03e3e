/-
From a table to its graph and back. Running a table moves without reading in the column of its
marker alone: any other column that is a label which reads nothing is never followed (`Skips`). The
graph has an edge that reads nothing for both, and the way back stores all of them under the
marker. Main statement: the second table has the states and the marks of the first and moves
without reading where the first stores such moves in any column (`ofGraph_ofTable`), so it answers
as the first does where no other column than the marker stores any.
-/
import Acceptor.Proofs.Graph.Labelled

namespace Acceptor

variable {t : Table} {g : Graph} {i j : Nat} {symbol : String} {columns : List (String × Label)}

namespace Table

/-- A state is stored to follow another in a column other than the marker that reads nothing. -/
def Skips (t : Table) (i j : Nat) : Prop :=
  ∃ symbol ∈ t.symbols, Label.ofText symbol = .ok .epsilon ∧ t.Follows i symbol j

/-- The moves of a table and, without reading, those that running it does not follow. -/
def skippingArrows (t : Table) : Arrows := fun i u j =>
  t.arrows i u j ∨ u = [] ∧ t.Skips i j

theorem skippingArrows_eq (h : ∀ i j, ¬ t.Skips i j) : t.skippingArrows = t.arrows := by
  funext i u j
  rw [eq_iff_iff, skippingArrows]
  exact or_iff_left fun hs => h i j hs.2

theorem Valid.symbol_mem_alphabet (hv : t.Valid) (hf : t.Follows i symbol j) :
    symbol ∈ t.alphabet := by
  obtain ⟨p, q, -, hq, -⟩ := hf
  exact (hv.of_mem_targets hq).2.1

/-! ## The graph of a table -/

theorem Drawn.names_eq (h : Drawn t columns g) : g.nodes.map (·.name) = t.states := by
  refine List.ext_getElem? fun k => ?_
  rw [List.getElem?_map]
  cases hn : g.nodes[k]? with
  | none =>
    rw [Option.map_none, eq_comm, List.getElem?_eq_none_iff]
    exact h.size_eq.symm.trans_le (List.getElem?_eq_none_iff.1 hn)
  | some n => exact (h.nodeFor k n hn).name_eq.symm

/-- The graph of a table is a table again. -/
theorem Drawn.labelled (h : Drawn t columns g) (hv : t.Valid) : g.Labelled where
  inPlace := Graph.inPlace_of_id_eq fun i n hn => (h.nodeFor i n hn).id_eq
  nodup := h.names_eq ▸ hv.nodup
  target_lt n hn x hx := by
    obtain ⟨i, hi⟩ := List.mem_iff_getElem?.1 hn
    obtain ⟨e, -, j, hf, rfl⟩ := ((h.nodeFor i n hi).mem_edges_iff x).1 hx
    exact Nat.lt_of_lt_of_eq hf.lt.2 h.size_eq.symm
  label n hn x hx := by
    obtain ⟨i, hi⟩ := List.mem_iff_getElem?.1 hn
    obtain ⟨e, he, j, -, rfl⟩ := ((h.nodeFor i n hi).mem_edges_iff x).1 hx
    refine ⟨e.2, rfl, ?_⟩
    obtain ⟨symbol, -, -, ⟨-, hl⟩ | ⟨-, hl⟩⟩ := forall₂_mem_right h.labels he
    · exact hl ▸ Label.ofText_text trivial
    · exact Label.ofText_text (Label.wellFormed_of_ofText hl)

/-- A move is an edge that carries the label of its column. -/
theorem Drawn.exists_edge (h : Drawn t columns g) (hv : t.Valid) (hf : t.Follows i symbol j) :
    ∃ n l, g.nodes[i]? = some n ∧ t.ColumnLabel symbol (symbol, l) ∧
      (⟨j, .label l⟩ : Edge) ∈ n.edges := by
  obtain ⟨n, hn⟩ := h.graphOf.exists_node hf.lt.1
  obtain ⟨⟨s, l⟩, he, rfl, hl⟩ := forall₂_mem_left h.labels (hv.symbol_mem_alphabet hf)
  exact ⟨n, l, hn, ⟨rfl, hl⟩, ((h.nodeFor i n hn).mem_edges_iff _).2 ⟨_, he, j, hf, rfl⟩⟩

theorem Drawn.exists_edge_of_marker (h : Drawn t columns g) (hv : t.Valid)
    (hf : t.Follows i t.marker j) :
    ∃ n, g.nodes[i]? = some n ∧ (⟨j, .label .epsilon⟩ : Edge) ∈ n.edges := by
  obtain ⟨n, l, hn, ⟨-, ⟨-, rfl⟩ | ⟨hm, -⟩⟩, he⟩ := h.exists_edge hv hf
  · exact ⟨n, hn, he⟩
  · exact absurd rfl hm

theorem Drawn.exists_edge_of_symbol (h : Drawn t columns g) (hv : t.Valid)
    (hs : symbol ∈ t.symbols) {l : Label} (hl : Label.ofText symbol = .ok l)
    (hf : t.Follows i symbol j) :
    ∃ n, g.nodes[i]? = some n ∧ (⟨j, .label l⟩ : Edge) ∈ n.edges := by
  obtain ⟨n, l', hn, ⟨-, ⟨hm, -⟩ | ⟨-, hl'⟩⟩, he⟩ := h.exists_edge hv hf
  · exact absurd hm (mem_symbols_iff.1 hs).2
  · cases hl.symm.trans hl'
    exact ⟨n, hn, he⟩

/-- The graph also moves where running the table does not. -/
theorem Drawn.arrows_eq (h : Drawn t columns g) (hv : t.Valid) :
    Acceptor.arrows .words g.nodes = t.skippingArrows := by
  funext i u j
  rw [eq_iff_iff]
  constructor
  · rintro ⟨n, hn, x, hx, rfl, hu⟩
    obtain ⟨⟨s, l⟩, he, k, hf, rfl⟩ := ((h.nodeFor i n hn).mem_edges_iff x).1 hx
    obtain ⟨symbol, hs, rfl, ⟨hm, rfl⟩ | ⟨hm, hl⟩⟩ := forall₂_mem_right h.labels he
    · exact .inl (.inl ⟨hu, hm ▸ hf⟩)
    · have hsymbol := mem_symbols_iff.2 ⟨hs, hm⟩
      by_cases hne : l = .epsilon
      · exact .inr ⟨by rwa [hne] at hu, s, hsymbol, hne ▸ hl, hf⟩
      · obtain ⟨c, rfl, hc⟩ := (Label.mem_language_iff hne).1 hu
        exact .inl (.inr ⟨c, rfl, s, hsymbol, l, hl, hc, hf⟩)
  · rintro ((⟨rfl, hf⟩ | ⟨c, rfl, s, hs, l, hl, hc, hf⟩) | ⟨rfl, s, hs, hl, hf⟩)
    · obtain ⟨n, hn, he⟩ := h.exists_edge_of_marker hv hf
      exact ⟨n, hn, _, he, rfl, Language.nil_mem_one⟩
    · have hne : l ≠ .epsilon := by
        rintro rfl
        cases hc
      obtain ⟨n, hn, he⟩ := h.exists_edge_of_symbol hv hs hl hf
      exact ⟨n, hn, _, he, rfl, (Label.mem_language_iff hne).2 ⟨c, rfl, hc⟩⟩
    · obtain ⟨n, hn, he⟩ := h.exists_edge_of_symbol hv hs hl hf
      exact ⟨n, hn, _, he, rfl, Language.nil_mem_one⟩

/-! ## Back to a table -/

/-- The nodes with a mark stand at the positions with this mark. -/
theorem Drawn.ofList_filter_eq (h : Drawn t columns g) (hv : t.Valid) {f : Node → Bool}
    {s : IndexSet} (hs : ∀ i ∈ s, i < t.size)
    (hf : ∀ i n, g.nodes[i]? = some n → f n = decide (i ∈ s)) :
    OrderedSet.ofList ((g.nodes.filter f).map (·.id)) = s := by
  refine OrderedSet.ext fun i => (h.labelled hv).inPlace.mem_ofList_filter_iff.trans ?_
  constructor
  · rintro ⟨n, hn, hmark⟩
    exact of_decide_eq_true ((hf i n hn).symm.trans hmark)
  · intro hi
    obtain ⟨n, hn⟩ := h.graphOf.exists_node (hs i hi)
    exact ⟨n, hn, (hf i n hn).trans (decide_eq_true hi)⟩

theorem Drawn.starts_eq (h : Drawn t columns g) (hv : t.Valid) {columns' : List String} :
    (g.tableOf columns').starts = t.starts :=
  h.ofList_filter_eq hv hv.starts_lt fun i n hn => (h.nodeFor i n hn).isStart_eq

theorem Drawn.finals_eq (h : Drawn t columns g) (hv : t.Valid) {columns' : List String} :
    (g.tableOf columns').finals = t.finals :=
  h.ofList_filter_eq hv hv.finals_lt fun i n hn => (h.nodeFor i n hn).isFinal_eq

/-- The words of the table of the graph. -/
theorem Drawn.mem_language_iff (h : Drawn t columns g) (hv : t.Valid) {columns' : List String}
    (hc : g.IsColumns columns') {w : List Char} : w ∈ (g.tableOf columns').language ↔
      ∃ i j, t.StartsAt i ∧ j ∈ t.finals ∧ t.skippingArrows.Path i w j := by
  have harrows := ((h.labelled hv).arrows_tableOf hc).trans (h.arrows_eq hv)
  simp only [language, harrows, h.finals_eq hv, mem_initial_iff, StartsAt, h.starts_eq hv]
  exact Iff.rfl

/-- From a table with states that has a graph, the table of this graph is found. It makes sense, has
the states and the marks of the first table and answers to every input whether there is a path from
where the first table may start to a final state that spells the input, by the moves of the first
table and without reading by those that running it does not follow. So it answers as the first does
if that stores none of the latter. -/
theorem ofGraph_ofTable {t : Table} {g : Graph} (hg : Graph.ofTable t = .ok g)
    (hne : t.states ≠ []) :
    ∃ t', Table.ofGraph g = .ok t' ∧ t'.validate = .ok () ∧ t'.states = t.states ∧
      t'.starts = t.starts ∧ t'.finals = t.finals ∧
      (∀ input : String,
        (t'.accepts input = .ok true ↔
          ∃ i j, t.StartsAt i ∧ j ∈ t.finals ∧ t.skippingArrows.Path i input.toList j) ∧
        (t'.accepts input = .ok false ↔
          ¬ ∃ i j, t.StartsAt i ∧ j ∈ t.finals ∧ t.skippingArrows.Path i input.toList j)) ∧
      ((∀ i j, ¬ t.Skips i j) → ∀ input, t'.accepts input = t.accepts input) := by
  obtain ⟨hv, hl⟩ := of_ofTable hg
  obtain ⟨columns, g', hg', h⟩ := hv.exists_drawn hl
  cases hg.symm.trans hg'
  obtain ⟨columns', hok, hc⟩ := (h.labelled hv).exists_tableOf
  have hnodes : g.nodes ≠ [] := by
    rw [← h.names_eq] at hne
    exact fun he => hne (List.map_eq_nil_iff.2 he)
  have hrun := (h.labelled hv).runnable_tableOf hnodes hc
  have hdecides := fun input => (hrun.decides_accepts input).congr (h.mem_language_iff hv hc)
  refine ⟨_, hok, validate_eq_ok_iff.2 hrun.valid, (Graph.states_tableOf columns').trans h.names_eq,
    h.starts_eq hv, h.finals_eq hv, fun input => ?_, fun hskips input => ?_⟩
  · obtain ⟨answer, hanswer, hiff⟩ := hdecides input
    rw [hanswer, ← hiff]
    simp
  · obtain ⟨labels, hlabels⟩ := exists_symbolLabels hl
    refine ((hdecides input).congr ?_).unique (hv.decides_accepts hne hlabels input)
    simp only [skippingArrows_eq hskips, ← mem_initial_iff]
    exact Iff.rfl

/-- A table with a marker of its own, where two columns that read nothing and one of a set come
before it and one column stores nothing. -/
def remarked : Table :=
  ((((ofStates ["p", "", "p'"] ["epsilon", "\x7bbb\x7d", "ε", "x", "b", "eps"] "eps").store
    [⟨"p", "eps", ["", "p'", ""]⟩, ⟨"", "\x7bbb\x7d", ["p'"]⟩, ⟨"", "b", ["p'"]⟩,
      ⟨"p'", "epsilon", ["p"]⟩, ⟨"p'", "ε", ["p"]⟩]).markStart 1).markStart 0).markFinal 2

theorem ofGraph_ofTable_remarked : ∃ g, Graph.ofTable remarked = .ok g ∧
    ∃ t', Table.ofGraph g = .ok t' ∧ t'.validate = .ok () ∧ t'.states = remarked.states ∧
      t'.starts = remarked.starts ∧ t'.finals = remarked.finals ∧
      (∀ input : String,
        (t'.accepts input = .ok true ↔ ∃ i j, remarked.StartsAt i ∧ j ∈ remarked.finals ∧
          remarked.skippingArrows.Path i input.toList j) ∧
        (t'.accepts input = .ok false ↔ ¬ ∃ i j, remarked.StartsAt i ∧ j ∈ remarked.finals ∧
          remarked.skippingArrows.Path i input.toList j)) ∧
      ((∀ i j, ¬ remarked.Skips i j) → ∀ input, t'.accepts input = remarked.accepts input) := by
  have hsome : (Graph.ofTable remarked).toOption.isSome = true := by decide +kernel
  obtain ⟨g, hg⟩ := exists_ok_of_isSome hsome
  exact ⟨g, hg, ofGraph_ofTable hg (by decide)⟩

/-- A table whose only move is in a column that reads nothing. -/
def muted : Table :=
  (((ofStates ["p", "q"] ["epsilon"] usualMarker).store [⟨"p", "epsilon", ["q"]⟩]).markStart 0
    ).markFinal 1

/-- The table of the graph of a table need not answer as that table does. -/
theorem roundTrip_changes_muted : ¬ ∀ (t : Table) (g : Graph), t.validate = .ok () →
    t.states ≠ [] → Graph.ofTable t = .ok g → ∃ t', Table.ofGraph g = .ok t' ∧
      t'.states = t.states ∧ t'.starts = t.starts ∧ t'.finals = t.finals ∧
      ∀ input : String, t'.accepts input = t.accepts input := by
  intro h
  have hvalid : muted.Valid := by decide +kernel
  have hsome : (Graph.ofTable muted).toOption.isSome = true := by decide +kernel
  obtain ⟨g, hg⟩ := exists_ok_of_isSome hsome
  obtain ⟨t', ht', -, -, -, haccepts⟩ := h muted g (validate_eq_ok_iff.2 hvalid) (by decide) hg
  have hback : (Graph.ofTable muted >>= fun g => Table.ofGraph g >>= fun t' => t'.accepts ""
      ).toOption = some true := by decide +kernel
  have hfirst : (muted.accepts "").toOption = some false := by decide +kernel
  rw [hg] at hback
  change (Table.ofGraph g >>= _).toOption = _ at hback
  rw [ht'] at hback
  change (t'.accepts "").toOption = _ at hback
  rw [haccepts "", hfirst] at hback
  cases hback

end Table

end Acceptor
