/-
The switch of the walk. Main statement: it does not matter to a compiled expression, as no edge of
its deterministic graph carries the label that reads nothing (`run_withOptions`). In no table on the
way does a column read as that label, also where `ε` is a character of a set or of a range.
-/
import Mathlib.Data.List.Find
import Acceptor.Proofs.Recognizer

namespace Acceptor

/-! ## Walks through edges that read something -/

namespace Graph

/-- Every edge of a graph carries a label that reads something. -/
def Audible (g : Graph) : Prop :=
  ∀ n ∈ g.nodes, ∀ e ∈ n.edges, ∃ l : Label, e.inscription = .label l ∧ l ≠ .epsilon

variable {g : Graph} {n : Node} {e : Edge}

/-- The switch does not matter to an edge that reads something. -/
theorem reads_eq_of_label {l : Label} (he : e.inscription = .label l) (hl : l ≠ .epsilon)
    (a b : WalkOptions) (c : Char) : e.reads a c = e.reads b c := by
  unfold Edge.reads
  rw [he]
  cases l with
  | epsilon => exact absurd rfl hl
  | any => rfl
  | literal => rfl
  | range => rfl
  | oneOf => rfl
  | noneOf => rfl

/-- The same edge is followed from a node, whatever the switch. -/
theorem Audible.find?_eq (h : g.Audible) (hn : n ∈ g.nodes) (a b : WalkOptions) (c : Char) :
    n.edges.find? (·.reads a c) = n.edges.find? (·.reads b c) := by
  refine List.find?_congr fun e he => ?_
  obtain ⟨l, hl, hne⟩ := h n hn e he
  exact reads_eq_of_label hl hne a b c

theorem Audible.walkFrom_eq (h : g.Audible) (a b : WalkOptions) (hn : n ∈ g.nodes)
    (position : Nat) (input : List Char) :
    g.walkFrom a n position input = g.walkFrom b n position input := by
  induction input generalizing n position with
  | nil => rfl
  | cons c rest ih =>
    rw [walkFrom, walkFrom, h.find?_eq hn a b]
    cases n.edges.find? (·.reads b c) with
    | none => rfl
    | some e =>
      dsimp only
      cases hnext : g.node? e.target with
      | none => rfl
      | some next =>
        dsimp only
        rw [ih (List.mem_of_getElem? hnext)]

theorem Audible.walk_eq (h : g.Audible) (a b : WalkOptions) (input : String) :
    g.walk input a = g.walk input b := by
  unfold walk
  split
  · rfl
  · rename_i start rest hstart
    have hmem : start ∈ g.startNodes := hstart ▸ List.mem_cons_self
    rw [h.walkFrom_eq a b (List.mem_filter.1 hmem).1]

end Graph

/-! ## Columns that read something -/

namespace Table

open CharClass

variable {t r e : Table} {d : Dfa} {g : Graph} {columns : List (String × Label)}

/-- No column but that of the marker reads as the label that reads nothing. -/
def Audible (t : Table) : Prop :=
  ∀ symbol ∈ t.symbols, Label.ofText symbol ≠ .ok .epsilon

theorem Audible.of_symbols_eq (h : t.Audible) (hs : r.symbols = t.symbols) : r.Audible :=
  fun symbol hm => h symbol (hs ▸ hm)

/-- A class is not labelled as one that reads nothing, be its only character `ε`. -/
theorem label_ne_epsilon {labels : List Label} {k : CharClass} (hk : k ∈ partition labels) :
    k.label ≠ .epsilon := by
  rcases mem_finite_or_cofinite hk with ⟨b, -, rfl⟩ | hcof
  · change intervalLabel b.interval ≠ .epsilon
    unfold intervalLabel
    split
    · exact Label.noConfusion
    · exact Label.noConfusion
  · intro he
    have hcofinite := (isCofinite_of_mem hcof).1
    rw [he] at hcofinite
    cases hcofinite

theorem classLabel_ne_epsilon {l : Label} (hl : l ≠ .epsilon) : t.classLabel l ≠ .epsilon := by
  rcases classLabel_eq t l with he | ⟨c, -, he⟩
  · rwa [he]
  · rw [he]
    exact Label.noConfusion

theorem Split.audible (h : Split t r) (ht : t.Audible) : r.Audible := by
  intro a ha
  rcases h.columns a ha with ha | ⟨labels, hlabels, k, hk, rfl⟩
  · exact ht a ha
  · rw [ofText_className hlabels hk]
    exact fun he => classLabel_ne_epsilon (label_ne_epsilon hk) (Except.ok.inj he)

/-- The columns of the table of a graph are the labels of its edges that read something. -/
theorem audible_tableOf (h : g.Labelled) {columns : List String} (hc : g.IsColumns columns) :
    (g.tableOf columns).Audible := by
  intro symbol hs
  obtain ⟨i, n, hn, e, he, l, hl, hne, rfl⟩ :=
    (h.mem_columns_iff hc).1 (Graph.mem_symbols_tableOf.1 hs).1
  obtain ⟨l', hl', hw⟩ := h.exists_label hn he
  cases hl.symm.trans hl'
  rw [Label.ofText_text hw]
  exact fun heq => hne (Except.ok.inj heq)

/-- An edge of the graph of a table carries the label of a column in which something follows. -/
theorem Drawn.audible (h : Drawn t columns g) (ht : t.Audible)
    (hm : ∀ state, t.targets state t.marker = []) : g.Audible := by
  intro n hn x hx
  obtain ⟨i, hi⟩ := List.mem_iff_getElem?.1 hn
  obtain ⟨⟨s, l⟩, he, j, hf, rfl⟩ := ((h.nodeFor i n hi).mem_edges_iff x).1 hx
  refine ⟨l, rfl, ?_⟩
  obtain ⟨symbol, hs, rfl, ⟨hmarker, -⟩ | ⟨hmarker, hl⟩⟩ := forall₂_mem_right h.labels he
  · obtain ⟨p, q, -, hq, -⟩ := hf
    rw [hmarker, hm p] at hq
    cases hq
  · rintro rfl
    exact ht s (mem_symbols_iff.2 ⟨hs, hmarker⟩) hl

/-- The stages of a table end in a graph whose edges read something, if its columns do. -/
theorem Audible.graph (ht : t.Audible) (hrun : t.Runnable) (hr : t.refine = .ok r)
    (he : r.removeEpsilon = .ok e) (hd : e.determinize = .ok d)
    (hg : Graph.ofTable d.table = .ok g) : g.Audible := by
  obtain ⟨labels, hlabels⟩ := exists_symbolLabels hrun.labels
  obtain ⟨r', hr', hsplit⟩ := hrun.valid.exists_split hlabels
  cases hr.symm.trans hr'
  obtain ⟨e', he', heliminated⟩ := hsplit.valid.exists_removeEpsilon
  cases he.symm.trans he'
  have hne : e.states ≠ [] := fun hnil =>
    hrun.states_ne (hsplit.states_eq ▸ heliminated.states_eq_nil_iff.1 hnil)
  obtain ⟨d', found, hd', hdeterminized⟩ :=
    heliminated.valid.exists_determinize hne heliminated.targets_marker
  cases hd.symm.trans hd'
  obtain ⟨columns, g', hg', hdrawn⟩ := hdeterminized.valid.exists_drawn (of_ofTable hg).2
  cases hg.symm.trans hg'
  have hfree : e.Audible := (hsplit.audible ht).of_symbols_eq heliminated.symbols_eq
  exact hdrawn.audible (hfree.of_symbols_eq hdeterminized.symbols_eq) hdeterminized.targets_marker

end Table

/-! ## Compiled expressions -/

namespace Recognizer

variable {r : Recognizer}

theorem audible_of_ofExpression {expression : String} {options : WalkOptions}
    (hr : ofExpression expression options = .ok r) : r.graph.Audible := by
  obtain ⟨refined, hnfa, htable, hrefined, hfree, hdfa, hgraph, -⟩ := of_ofExpression hr
  obtain ⟨-, -, htabular, -, -⟩ := Graph.tabular_of_ofExpression hnfa
  obtain ⟨columns, hok, hc⟩ := htabular.exists_tableOf
  have htableOf : r.nfaTable = r.nfa.tableOf columns := Except.ok.inj (htable.symm.trans hok)
  rw [htableOf] at hrefined
  exact (Table.audible_tableOf htabular.labelled hc).graph (htabular.runnable_tableOf hc)
    hrefined hfree hdfa hgraph

/-- Every edge of the deterministic graph of an expression carries a label that reads something, so
with whatever options it walks along an input, the run is the same, step by step and in its
rejection, and so are the answers to one input and to many. -/
theorem run_withOptions {expression : String} {options : WalkOptions}
    (hr : ofExpression expression options = .ok r) :
    (∀ n ∈ r.graph.nodes, ∀ e ∈ n.edges, ∃ l : Label, e.inscription = .label l ∧ l ≠ .epsilon) ∧
    ∀ a b : WalkOptions,
      (∀ input : String, (r.withOptions a).run input = (r.withOptions b).run input ∧
        (r.withOptions a).isMatch input = (r.withOptions b).isMatch input) ∧
      ∀ inputs : List String,
        (r.withOptions a).testAll inputs = (r.withOptions b).testAll inputs := by
  have haudible := audible_of_ofExpression hr
  refine ⟨haudible, fun a b => ?_⟩
  have hwalk : ∀ input, r.graph.walk input a = r.graph.walk input b := haudible.walk_eq a b
  have hrun : ∀ input, (r.withOptions a).run input = (r.withOptions b).run input := hwalk
  refine ⟨fun input => ⟨hrun input, ?_⟩, fun inputs => ?_⟩
  · rw [isMatch, isMatch, hrun]
  · change inputs.map _ = inputs.map _
    simp only [withOptions, hwalk]

theorem run_withOptions_epsilon_in_set : ∃ r, ofExpression "(\x7bεa\x7d+[α-ω])^[ε-ζ]*" {} = .ok r ∧
    (∀ n ∈ r.graph.nodes, ∀ e ∈ n.edges, ∃ l : Label, e.inscription = .label l ∧ l ≠ .epsilon) ∧
    ∀ a b : WalkOptions,
      (∀ input : String, (r.withOptions a).run input = (r.withOptions b).run input ∧
        (r.withOptions a).isMatch input = (r.withOptions b).isMatch input) ∧
      ∀ inputs : List String,
        (r.withOptions a).testAll inputs = (r.withOptions b).testAll inputs := by
  have hsome : (ofExpression "(\x7bεa\x7d+[α-ω])^[ε-ζ]*" {}).toOption.isSome = true := by
    decide +kernel
  obtain ⟨r, hr⟩ := exists_ok_of_isSome hsome
  exact ⟨r, hr, run_withOptions hr⟩

end Recognizer

end Acceptor
