/-
What a rejection of a compiled expression tells. No node of its graphs is a dead end: each is on a
path from the start to the end, every edge of which reads something (`Tabular.live_tableOf`), and
the stages keep that up. So the walk is stuck on a character only where no accepted input goes on
with it. Main statement: `rejection_exact`.
-/
import Acceptor.Proofs.Graph.Shape
import Acceptor.Proofs.Recognizer

namespace Acceptor

open Table

namespace Graph

variable {g : Graph} {columns : List String} {i j : Nat}

/-- A path over edges that read something reads a word. -/
theorem Tabular.exists_word (h : g.Tabular) (hp : Leads (HasEdge g.nodes) i j) :
    ∃ w, (arrows .words g.nodes).Path i w j := by
  induction hp with
  | refl => exact ⟨[], .nil⟩
  | tail _ hj ih =>
    obtain ⟨w, hw⟩ := ih
    obtain ⟨x, ⟨n, hn, hx⟩, rfl⟩ := hj
    obtain ⟨l, hl, hwritten⟩ := h.label hn hx
    obtain ⟨v, hv⟩ := hwritten.nonempty
    exact ⟨w ++ v, hw.append (.single ⟨n, hn, x, hx, rfl, by rw [hl]; exact hv⟩)⟩

/-- The table of a graph of the shape has no dead ends. -/
theorem Tabular.live_tableOf (h : g.Tabular) (hc : g.IsColumns columns) (hs : Shape g.nodes) :
    (g.tableOf columns).Live := by
  intro i hi
  rw [Table.size, states_tableOf, List.length_map] at hi
  obtain ⟨w, hw⟩ := h.exists_word (hs.between i hi).2
  exact ⟨w, 1, h.mem_finals_iff.2 rfl, h.labelled.arrows_tableOf hc ▸ hw⟩

end Graph

/-- A deterministic table without dead ends, and its graph. -/
structure Decisive (t : Table) (g : Graph) : Prop where
  valid : t.Valid
  states_ne : t.states ≠ []
  graph : GraphOf t g
  functional : t.Functional
  targets_marker : ∀ state, t.targets state t.marker = []
  exists_start : ∃ x, t.starts = .singleton x
  live : t.Live

namespace Decisive

variable {t : Table} {g : Graph}

theorem finals_isEmpty (h : Decisive t g) : t.finals.isEmpty = false :=
  h.live.finals_isEmpty h.states_ne

theorem exists_walk (h : Decisive t g) (input : String) : ∃ run, g.walk input {} = .ok run ∧
    (run.accepted = true ↔ input.toList ∈ t.language) := by
  obtain ⟨x, hx⟩ := h.exists_start
  exact h.graph.exists_walk h.valid h.functional h.targets_marker hx h.finals_isEmpty input

/-- A walk stops where the part of the input that it read leads. -/
theorem exists_halt (h : Decisive t g) {input : String} {run : Run}
    (hrun : g.walk input {} = .ok run) : ∃ k rest,
      input.toList = run.steps.map (·.char) ++ rest ∧ k < t.size ∧
      Halts t k run.steps.length rest run.rejection ∧
      ∀ w, run.steps.map (·.char) ++ w ∈ t.language ↔ ∃ j ∈ t.finals, t.arrows.Path k w j := by
  obtain ⟨x, hx⟩ := h.exists_start
  obtain ⟨start, hstart, hwalk⟩ := h.graph.exists_walk_eq h.valid hx h.finals_isEmpty
  obtain ⟨k, rest, hrest, hpath, hk, hhalts⟩ :=
    h.graph.exists_halt hstart ((hwalk input).symm.trans hrun)
  rw [Nat.zero_add] at hhalts
  refine ⟨k, rest, hrest, hk, hhalts, fun w => ?_⟩
  rw [mem_language_iff_of_start hx]
  simp only [h.functional.path_append_iff h.targets_marker hpath]

/-- A walk that finds no edge has read a start of some word, which does not go on so. -/
theorem of_noTransition (h : Decisive t g) {input : String} {run : Run}
    (hrun : g.walk input {} = .ok run) {node p : Nat} {c : Char}
    (hrejection : run.rejection = some (.noTransition node c p)) :
    input.toList[p]? = some c ∧ (∃ w, input.toList.take p ++ w ∈ t.language) ∧
      ∀ w, input.toList.take (p + 1) ++ w ∉ t.language := by
  obtain ⟨k, rest, hrest, hk, hhalts, hlanguage⟩ := h.exists_halt hrun
  rw [hrejection] at hhalts
  cases hhalts with
  | @noTransition _ _ rest hnone =>
    have hlen : run.steps.length = (run.steps.map (·.char)).length := (List.length_map _).symm
    rw [hrest, hlen, List.getElem?_append_right (Nat.le_refl _), Nat.sub_self, List.take_left,
      List.take_length_add_append]
    refine ⟨rfl, ?_, fun w hw => ?_⟩
    · obtain ⟨w, hw⟩ := h.live k hk
      exact ⟨w, (hlanguage w).2 hw⟩
    · rw [List.append_assoc] at hw
      obtain ⟨j, -, hp⟩ := (hlanguage _).1 hw
      obtain ⟨i, hi, -⟩ := (path_cons_iff h.targets_marker).1 hp
      exact hnone i hi

/-- A walk that ends on a node that is not final has read the start of a longer word. -/
theorem of_notFinal (h : Decisive t g) {input : String} {run : Run}
    (hrun : g.walk input {} = .ok run) {node : Nat}
    (hrejection : run.rejection = some (.notFinal node)) :
    run.steps.map (·.char) = input.toList ∧ ∃ w, w ≠ [] ∧ input.toList ++ w ∈ t.language := by
  obtain ⟨k, rest, hrest, hk, hhalts, hlanguage⟩ := h.exists_halt hrun
  rw [hrejection] at hhalts
  cases hhalts with
  | notFinal hnot =>
    rw [List.append_nil] at hrest
    obtain ⟨w, hw⟩ := h.live k hk
    refine ⟨hrest.symm, w, ?_, hrest ▸ (hlanguage w).2 hw⟩
    rintro rfl
    obtain ⟨j, hj, hp⟩ := hw
    exact hnot (eq_of_reaches h.targets_marker hp ▸ hj)

end Decisive

namespace Recognizer

variable {r : Recognizer} {expression : String}

theorem decisive_of_ofExpression (hr : ofExpression expression {} = .ok r) :
    Decisive r.dfa.table r.graph ∧ r.options = {} := by
  obtain ⟨refined, hnfa, htable, hrefined, hfree, hdfa, hgraph, hoptions⟩ := of_ofExpression hr
  obtain ⟨-, -, htabular, -, -⟩ := Graph.tabular_of_ofExpression hnfa
  obtain ⟨columns, ht, hc⟩ := htabular.exists_tableOf
  rw [Except.ok.inj (htable.symm.trans ht)] at hrefined
  obtain ⟨r', e, d, g, found, hr', he, hd, hg, hstages⟩ :=
    (htabular.runnable_tableOf hc).exists_stages (plainMarker_of_eq (Graph.marker_tableOf columns))
  cases hrefined.symm.trans hr'
  cases hfree.symm.trans he
  cases hdfa.symm.trans hd
  cases hgraph.symm.trans hg
  obtain ⟨x, hx, -, -⟩ := hstages.determinized.exists_start
  have hlive := htabular.live_tableOf hc (Graph.shape_nodes_of_ofExpression hnfa)
  exact ⟨⟨hstages.determinized.valid, hstages.determinized.states_ne, hstages.graph,
    hstages.functional, hstages.determinized.targets_marker, ⟨x, hx⟩, hstages.live hlive⟩, hoptions⟩

theorem isMatch_iff (hr : ofExpression expression {} = .ok r) (s : String) :
    r.isMatch s = true ↔ s.toList ∈ r.dfa.table.language := by
  obtain ⟨hdecisive, hoptions⟩ := decisive_of_ofExpression hr
  obtain ⟨run, hrun, haccepted⟩ := hdecisive.exists_walk s
  rw [isMatch, Recognizer.run, hoptions, hrun]
  exact haccepted

/-- A rejection that comes as early as it can, and gives the reason. -/
structure ExactRejection (r : Recognizer) (input : String) (run : Run) : Prop where
  /-- A character without an edge is the one at its position. -/
  char_at : ∀ node c p, run.rejection = some (.noTransition node c p) → input.toList[p]? = some c
  /-- What stands before the character is the start of an accepted input. -/
  before : ∀ node c p, run.rejection = some (.noTransition node c p) →
    ∃ s : String, input.toList.take p <+: s.toList ∧ r.isMatch s = true
  /-- With the character it is not. -/
  after : ∀ node c p, run.rejection = some (.noTransition node c p) →
    ∀ s : String, input.toList.take (p + 1) <+: s.toList → r.isMatch s = false
  /-- Where the walk ends on a node that is not final it has read the whole input. -/
  consumed : ∀ node, run.rejection = some (.notFinal node) →
    run.steps.map (·.char) = input.toList
  /-- That is the start of a longer input that is accepted. -/
  unfinished : ∀ node, run.rejection = some (.notFinal node) →
    ∃ s : String, input.toList <+: s.toList ∧ s ≠ input ∧ r.isMatch s = true

/-- A run of a compiled expression that rejects its input does so as early as it can. -/
theorem rejection_exact (hr : ofExpression expression {} = .ok r) (input : String) :
    ∃ run, r.run input = .ok run ∧ r.ExactRejection input run := by
  obtain ⟨hdecisive, hoptions⟩ := decisive_of_ofExpression hr
  obtain ⟨run, hrun, -⟩ := hdecisive.exists_walk input
  have hmatch : ∀ w, r.isMatch (.ofList w) = true ↔ w ∈ r.dfa.table.language := by
    intro w
    rw [isMatch_iff hr, String.toList_ofList]
  refine ⟨run, by rw [Recognizer.run, hoptions, hrun], fun node c p h => ?_, fun node c p h => ?_,
    fun node c p h s hs => ?_, fun node h => ?_, fun node h => ?_⟩
  · exact (hdecisive.of_noTransition hrun h).1
  · obtain ⟨-, ⟨w, hw⟩, -⟩ := hdecisive.of_noTransition hrun h
    refine ⟨_, ?_, (hmatch _).2 hw⟩
    rw [String.toList_ofList]
    exact List.prefix_append _ _
  · obtain ⟨-, -, hstuck⟩ := hdecisive.of_noTransition hrun h
    rw [← Bool.not_eq_true, isMatch_iff hr]
    obtain ⟨w, hw⟩ := hs
    exact hw ▸ hstuck w
  · exact (hdecisive.of_notFinal hrun h).1
  · obtain ⟨-, w, hne, hw⟩ := hdecisive.of_notFinal hrun h
    refine ⟨_, ?_, fun he => hne ?_, (hmatch _).2 hw⟩
    · rw [String.toList_ofList]
      exact List.prefix_append _ _
    · have hlist := congrArg String.toList he
      rw [String.toList_ofList] at hlist
      exact List.append_cancel_left (hlist.trans (List.append_nil _).symm)

theorem rejection_of_overlapping_atoms : ∃ r, ofExpression "([a-c]+b)*c" {} = .ok r ∧
    ∀ input : String, ∃ run, r.run input = .ok run ∧ r.ExactRejection input run := by
  have hsome : (ofExpression "([a-c]+b)*c" {}).toOption.isSome = true := by decide +kernel
  obtain ⟨r, hr⟩ := exists_ok_of_isSome hsome
  exact ⟨r, hr, rejection_exact hr⟩

end Recognizer

end Acceptor
