/-
Graphs under construction: what their paths read, what every one of them keeps to (`Sound`), and
what adding a node or an edge and removing an edge do to both. Main statements: an added edge is
one more move (`arrows_addEdge`), and with a removed edge put back the moves are what they were
(`arrows_removeEdge`).
-/
import Acceptor.Graph.Construction
import Acceptor.Proofs.Arrows
import Acceptor.Proofs.Pattern.Language

namespace Acceptor

variable {P : Label → Prop} {m : Meaning} {g g' : Graph} {i source target index : Nat} {n : Node}
  {s : Inscription} {p : Pattern}

/-! ## What paths read -/

/-- What an edge reads. -/
def Inscription.language (m : Meaning) : Inscription → Language Char
  | label l => m.label l
  | pattern p => m.pattern p

/-- The moves along the edges of some nodes, between the positions of the nodes. -/
def arrows (m : Meaning) (nodes : List Node) : Arrows := fun i u j =>
  ∃ n, nodes[i]? = some n ∧ ∃ e ∈ n.edges, e.target = j ∧ u ∈ e.inscription.language m

/-- What paths from a start node to a final node read. -/
def pathLanguage (m : Meaning) (nodes : List Node) : Language Char :=
  {w | ∃ i j a b, nodes[i]? = some a ∧ a.isStart = true ∧ nodes[j]? = some b ∧ b.isFinal = true ∧
    (arrows m nodes).Path i w j}

/-- The words of a snapshot: those spelled on paths from a start node to a final node, where an
edge that is still to be taken apart contributes any word of its run. -/
def Snapshot.language (s : Snapshot) : Language Char := pathLanguage .words s.nodes

/-! ## What a graph keeps to -/

/-- An inscription whose labels all have a property. -/
def Inscription.Sound (P : Label → Prop) : Inscription → Prop
  | label l => P l
  | pattern p => p.Sound P

/-- A node at its position: the first is the only start node, the second the only final node. -/
structure Node.Placed (n : Node) (i : Nat) : Prop where
  id_eq : n.id = i
  name_eq : n.name = s!"q{i}"
  isStart_eq : n.isStart = decide (i = 0)
  isFinal_eq : n.isFinal = decide (i = 1)

/-- A graph that comes about when an expression is taken apart. -/
structure Graph.Sound (P : Label → Prop) (g : Graph) : Prop where
  two_le : 2 ≤ g.size
  placed : ∀ (i : Nat) (n : Node), g.nodes[i]? = some n → n.Placed i
  target_lt : ∀ n ∈ g.nodes, ∀ e ∈ n.edges, e.target < g.size
  inscription : ∀ n ∈ g.nodes, ∀ e ∈ n.edges, e.inscription.Sound P

namespace Graph

/-- Moves stay inside the graph. -/
theorem Sound.fresh (h : g.Sound P) : (arrows m g.nodes).Fresh g.size := by
  rintro i u j ⟨n, hn, e, he, rfl, -⟩
  have hi : i < g.size := (List.getElem?_eq_some_iff.1 hn).1
  have hj := h.target_lt n (List.mem_of_getElem? hn) e he
  exact ⟨Nat.ne_of_lt hi, Nat.ne_of_lt hj⟩

/-- The words of a sound graph are read on the way from its first node to its second. -/
theorem Sound.mem_pathLanguage_iff (h : g.Sound P) {w : List Char} :
    w ∈ pathLanguage m g.nodes ↔ (arrows m g.nodes).Path 0 w 1 := by
  constructor
  · rintro ⟨i, j, a, b, ha, hstart, hb, hfinal, hp⟩
    rw [(h.placed i a ha).isStart_eq, decide_eq_true_iff] at hstart
    rw [(h.placed j b hb).isFinal_eq, decide_eq_true_iff] at hfinal
    rwa [hstart, hfinal] at hp
  · intro hp
    have h₀ : 0 < g.nodes.length := Nat.lt_of_lt_of_le (by decide) h.two_le
    have h₁ : 1 < g.nodes.length := h.two_le
    refine ⟨0, 1, _, _, List.getElem?_eq_getElem h₀, ?_, List.getElem?_eq_getElem h₁, ?_, hp⟩
    · exact (h.placed 0 _ (List.getElem?_eq_getElem h₀)).isStart_eq
    · exact (h.placed 1 _ (List.getElem?_eq_getElem h₁)).isFinal_eq

/-! ## Adding a node -/

theorem getElem?_addNode (i : Nat) : g.addNode.nodes[i]? =
    if i = g.size then some ⟨i, s!"q{i}", false, false, []⟩ else g.nodes[i]? := by
  rw [addNode, addNamed_nodes, List.getElem?_append]
  split
  · rename_i h
    have hne : i ≠ g.size := Nat.ne_of_lt h
    rw [if_neg hne]
  · rename_i h
    by_cases hi : i = g.size
    · subst hi
      simp [size]
    · rw [if_neg hi, List.getElem?_eq_none, List.getElem?_eq_none] <;> simp [size] at * <;> omega

theorem Sound.addNode (h : g.Sound P) : g.addNode.Sound P where
  two_le := by
    have := h.two_le
    rw [size_addNode]
    omega
  placed i n hn := by
    rw [getElem?_addNode] at hn
    split at hn
    · rename_i hi
      cases hn
      have := h.two_le
      exact ⟨rfl, rfl, (decide_eq_false (by omega)).symm, (decide_eq_false (by omega)).symm⟩
    · exact h.placed i n hn
  target_lt n hn e he := by
    rw [size_addNode]
    rcases List.mem_append.1 hn with hn | hn
    · exact Nat.lt_succ_of_lt (h.target_lt n hn e he)
    · rw [List.mem_singleton.1 hn] at he
      cases he
  inscription n hn e he := by
    rcases List.mem_append.1 hn with hn | hn
    · exact h.inscription n hn e he
    · rw [List.mem_singleton.1 hn] at he
      cases he

theorem arrows_addNode : arrows m g.addNode.nodes = arrows m g.nodes := by
  funext i u j
  rw [eq_iff_iff, arrows, arrows]
  constructor
  · rintro ⟨n, hn, e, he, hu⟩
    rw [getElem?_addNode] at hn
    split at hn
    · cases hn
      cases he
    · exact ⟨n, hn, e, he, hu⟩
  · rintro ⟨n, hn, e, he, hu⟩
    have hi : i ≠ g.size := Nat.ne_of_lt (List.getElem?_eq_some_iff.1 hn).1
    exact ⟨n, by rw [getElem?_addNode, if_neg hi, hn], e, he, hu⟩

/-! ## Changing the edges of a node -/

section Modify

variable {f : Node → Node}

theorem getElem?_of_modifyNode (hg : g.modifyNode source f = .ok g') (i : Nat) :
    g'.nodes[i]? = (g.nodes[i]?).map fun n => if source = i then f n else n := by
  obtain ⟨-, rfl⟩ := modifyNode_eq_ok_iff.1 hg
  exact List.getElem?_modify f source g.nodes i

theorem size_of_modifyNode (hg : g.modifyNode source f = .ok g') : g'.size = g.size := by
  obtain ⟨-, rfl⟩ := modifyNode_eq_ok_iff.1 hg
  exact List.length_modify f g.nodes source

theorem history_of_modifyNode (hg : g.modifyNode source f = .ok g') : g'.history = g.history := by
  obtain ⟨-, rfl⟩ := modifyNode_eq_ok_iff.1 hg
  rfl

theorem Sound.modifyNode (h : g.Sound P) (hg : g.modifyNode source f = .ok g')
    (hplaced : ∀ n i, n.Placed i → (f n).Placed i)
    (hedges : ∀ n, g.nodes[source]? = some n → ∀ e ∈ (f n).edges,
      e.target < g.size ∧ e.inscription.Sound P) : g'.Sound P := by
  have hnode : ∀ n' ∈ g'.nodes, ∀ e ∈ n'.edges, e.target < g.size ∧ e.inscription.Sound P := by
    intro n' hn' e he
    obtain ⟨i, hi⟩ := List.mem_iff_getElem?.1 hn'
    rw [getElem?_of_modifyNode hg] at hi
    obtain ⟨n, hn, rfl⟩ := Option.map_eq_some_iff.1 hi
    split at he
    · rename_i hs
      subst hs
      exact hedges n hn e he
    · have hm := List.mem_of_getElem? hn
      exact ⟨h.target_lt n hm e he, h.inscription n hm e he⟩
  refine ⟨?_, fun i n' hn' => ?_, fun n' hn' e he => ?_, fun n' hn' e he => (hnode n' hn' e he).2⟩
  · rw [size_of_modifyNode hg]
    exact h.two_le
  · rw [getElem?_of_modifyNode hg] at hn'
    obtain ⟨n, hn, rfl⟩ := Option.map_eq_some_iff.1 hn'
    split
    · exact hplaced n i (h.placed i n hn)
    · exact h.placed i n hn
  · rw [size_of_modifyNode hg]
    exact (hnode n' hn' e he).1

end Modify

/-! ## Adding an edge -/

theorem Sound.addEdge (h : g.Sound P) (ht : target < g.size) (hs : s.Sound P)
    (hg : g.addEdge source target s = .ok g') : g'.Sound P := by
  refine h.modifyNode hg (fun n i hn => ⟨hn.1, hn.2, hn.3, hn.4⟩) fun n hn e he => ?_
  rcases List.mem_append.1 he with he | he
  · have hm := List.mem_of_getElem? hn
    exact ⟨h.target_lt n hm e he, h.inscription n hm e he⟩
  · rw [List.mem_singleton.1 he]
    exact ⟨ht, hs⟩

/-- An added edge is one more move. -/
theorem arrows_addEdge (hg : g.addEdge source target s = .ok g') :
    arrows m g'.nodes = (arrows m g.nodes).add source (s.language m) target := by
  funext i u j
  rw [eq_iff_iff, arrows, Arrows.add, arrows]
  simp only [getElem?_of_modifyNode hg, Option.map_eq_some_iff]
  constructor
  · rintro ⟨_, ⟨n, hn, rfl⟩, e, he, rfl, hu⟩
    split at he
    · rename_i hs
      rcases List.mem_append.1 he with he | he
      · exact .inl ⟨n, hn, e, he, rfl, hu⟩
      · rw [List.mem_singleton.1 he] at hu ⊢
        exact .inr ⟨hs.symm, hu, rfl⟩
    · exact .inl ⟨n, hn, e, he, rfl, hu⟩
  · rintro (⟨n, hn, e, he, rfl, hu⟩ | ⟨rfl, hu, rfl⟩)
    · refine ⟨_, ⟨n, hn, rfl⟩, e, ?_, rfl, hu⟩
      split
      · exact List.mem_append_left _ he
      · exact he
    · have hi : i < g.nodes.length := (modifyNode_eq_ok_iff.1 hg).1
      refine ⟨_, ⟨_, List.getElem?_eq_getElem hi, rfl⟩, ⟨j, s⟩, ?_, rfl, hu⟩
      rw [if_pos rfl]
      exact List.mem_append_right _ List.mem_cons_self

/-! ## Removing an edge -/

/-- The edge to remove exists. -/
theorem removeEdge_eq_ok_iff : g.removeEdge source index = .ok g' ↔
    ∃ n e, g.nodes[source]? = some n ∧ n.edges[index]? = some e ∧
      g.modifyNode source (fun n => { n with edges := n.edges.eraseIdx index }) = .ok g' := by
  simp only [removeEdge, bind_eq_ok_iff, entry_eq_ok_iff]
  grind

theorem Sound.removeEdge (h : g.Sound P) (hg : g.removeEdge source index = .ok g') :
    g'.Sound P := by
  obtain ⟨-, -, -, -, hg⟩ := removeEdge_eq_ok_iff.1 hg
  refine h.modifyNode hg (fun n i hn => ⟨hn.1, hn.2, hn.3, hn.4⟩) fun n hn e he => ?_
  have hm := List.mem_of_getElem? hn
  have he := List.mem_of_mem_eraseIdx he
  exact ⟨h.target_lt n hm e he, h.inscription n hm e he⟩

/-- With a removed edge put back the moves are what they were. -/
theorem arrows_removeEdge (hg : g.removeEdge source index = .ok g')
    (hn : g.nodes[source]? = some n) (he : n.edges[index]? = some ⟨target, s⟩) :
    arrows m g.nodes = (arrows m g'.nodes).add source (s.language m) target := by
  obtain ⟨-, -, -, -, hg⟩ := removeEdge_eq_ok_iff.1 hg
  funext i u j
  rw [eq_iff_iff, Arrows.add, arrows, arrows]
  simp only [getElem?_of_modifyNode hg, Option.map_eq_some_iff]
  constructor
  · rintro ⟨n', hn', e, hmem, rfl, hu⟩
    by_cases hs : source = i
    · subst hs
      cases hn.symm.trans hn'
      obtain ⟨k, hk⟩ := List.mem_iff_getElem?.1 hmem
      by_cases hki : k = index
      · subst hki
        cases he.symm.trans hk
        exact .inr ⟨rfl, hu, rfl⟩
      · refine .inl ⟨_, ⟨n, hn, rfl⟩, e, ?_, rfl, hu⟩
        rw [if_pos rfl]
        exact List.mem_eraseIdx_iff_getElem?.2 ⟨k, hki, hk⟩
    · refine .inl ⟨_, ⟨n', hn', rfl⟩, e, ?_, rfl, hu⟩
      rwa [if_neg hs]
  · rintro (⟨_, ⟨n', hn', rfl⟩, e, hmem, rfl, hu⟩ | ⟨rfl, hu, rfl⟩)
    · split at hmem
      · exact ⟨n', hn', e, List.mem_of_mem_eraseIdx hmem, rfl, hu⟩
      · exact ⟨n', hn', e, hmem, rfl, hu⟩
    · exact ⟨n, hn, _, List.mem_of_getElem? he, rfl, hu⟩

end Graph

end Acceptor
