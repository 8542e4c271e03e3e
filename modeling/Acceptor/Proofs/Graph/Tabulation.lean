/-
The table of the graph of an expression. Main statement: the table of a graph that is taken apart
is found, can be run and has the words of the graph (`Tabular.exists_ofGraph`).
-/
import Acceptor.Proofs.Graph.Labelled
import Acceptor.Proofs.Graph.Rewriting

namespace Acceptor.Graph

open Table

variable {P : Label → Prop} {g : Graph} {i j : Nat} {n : Node} {p : String}
variable {columns : List String}

/-! ## The nodes of a sound graph -/

theorem Sound.inPlace (h : g.Sound P) : g.InPlace :=
  inPlace_of_id_eq fun i n hn => (h.placed i n hn).id_eq

theorem Sound.getElem?_names (h : g.Sound P) :
    (g.nodes.map (·.name))[i]? = some p ↔ i < g.size ∧ p = s!"q{i}" := by
  rw [List.getElem?_map, Option.map_eq_some_iff]
  constructor
  · rintro ⟨n, hn, rfl⟩
    exact ⟨(List.getElem?_eq_some_iff.1 hn).1, (h.placed i n hn).name_eq⟩
  · rintro ⟨hi, rfl⟩
    have hn : g.nodes[i]? = some g.nodes[i] := List.getElem?_eq_getElem hi
    exact ⟨_, hn, (h.placed i _ hn).name_eq⟩

theorem Sound.nodup_names (h : g.Sound P) : (g.nodes.map (·.name)).Nodup := by
  refine List.nodup_iff_pairwise_ne.2 (List.pairwise_iff_getElem.2 fun i j hi hj hij he => ?_)
  obtain ⟨-, hi'⟩ := h.getElem?_names.1 (List.getElem?_eq_getElem hi)
  obtain ⟨-, hj'⟩ := h.getElem?_names.1 (List.getElem?_eq_getElem hj)
  rw [hi', hj'] at he
  exact Nat.ne_of_lt hij (numbered_inj he)

theorem Sound.nodes_ne_nil (h : g.Sound P) : g.nodes ≠ [] :=
  List.ne_nil_of_length_pos (Nat.lt_of_lt_of_le (by decide) h.two_le)

/-! ## The table -/

/-- A sound graph whose edges carry labels that are told apart by their texts. -/
structure Tabular (g : Graph) : Prop where
  sound : g.Sound Label.Written
  atomic : Atomic g.nodes

theorem Tabular.label (h : g.Tabular) (hn : g.nodes[i]? = some n) {e : Edge} (he : e ∈ n.edges) :
    ∃ l : Label, e.inscription = .label l ∧ l.Written := by
  have hm := List.mem_of_getElem? hn
  obtain ⟨l, hl⟩ := h.atomic n hm e he
  have hs := h.sound.inscription n hm e he
  rw [hl] at hs
  exact ⟨l, hl, hs⟩

theorem Tabular.labelled (h : g.Tabular) : g.Labelled where
  inPlace := h.sound.inPlace
  nodup := h.sound.nodup_names
  target_lt := h.sound.target_lt
  label n hn e he := by
    obtain ⟨i, hi⟩ := List.mem_iff_getElem?.1 hn
    obtain ⟨l, hl, hw⟩ := h.label hi he
    exact ⟨l, hl, Label.ofText_text hw.wellFormed⟩

theorem Tabular.startsAt_iff (h : g.Tabular) : g.StartsAt i ↔ i = 0 := by
  have hn := List.getElem?_eq_getElem (List.length_pos_iff.2 h.sound.nodes_ne_nil)
  have hstart := (h.sound.placed 0 _ hn).isStart_eq
  constructor
  · rintro (⟨n, hn, hs⟩ | ⟨-, rfl⟩)
    · rw [(h.sound.placed i n hn).isStart_eq] at hs
      exact of_decide_eq_true hs
    · rfl
  · rintro rfl
    exact .inl ⟨_, hn, hstart⟩

theorem Tabular.endsAt_iff (h : g.Tabular) : g.EndsAt i ↔ i = 1 := by
  constructor
  · rintro ⟨n, hn, hfinal⟩
    rw [(h.sound.placed i n hn).isFinal_eq] at hfinal
    exact of_decide_eq_true hfinal
  · rintro rfl
    have hn := List.getElem?_eq_getElem (l := g.nodes) h.sound.two_le
    exact ⟨_, hn, (h.sound.placed 1 _ hn).isFinal_eq⟩

theorem Tabular.mem_finals_iff (h : g.Tabular) : i ∈ (g.tableOf columns).finals ↔ i = 1 :=
  h.labelled.mem_finals_iff.trans h.endsAt_iff

/-- The table has the words of the graph. -/
theorem Tabular.language_tableOf (h : g.Tabular) (hc : g.IsColumns columns) :
    (g.tableOf columns).language = pathLanguage .words g.nodes := by
  ext w
  simp only [h.labelled.mem_language_iff hc, h.startsAt_iff, h.endsAt_iff,
    h.sound.mem_pathLanguage_iff, exists_and_left, exists_eq_left]

/-- The table of a graph is found. -/
theorem Tabular.exists_tableOf (h : g.Tabular) :
    ∃ columns, Table.ofGraph g = .ok (g.tableOf columns) ∧ g.IsColumns columns :=
  h.labelled.exists_tableOf

theorem Tabular.runnable_tableOf (h : g.Tabular) (hc : g.IsColumns columns) :
    (g.tableOf columns).Runnable :=
  h.labelled.runnable_tableOf h.sound.nodes_ne_nil hc

/-- The table of a graph is found, can be run and has the words of the graph. -/
theorem Tabular.exists_ofGraph (h : g.Tabular) : ∃ t, Table.ofGraph g = .ok t ∧ t.Runnable ∧
    t.PlainMarker ∧ t.language = pathLanguage .words g.nodes := by
  obtain ⟨columns, hok, hc⟩ := h.labelled.exists_tableOf
  exact ⟨g.tableOf columns, hok, h.runnable_tableOf hc, plainMarker_of_eq (marker_tableOf columns),
    h.language_tableOf hc⟩

end Acceptor.Graph
