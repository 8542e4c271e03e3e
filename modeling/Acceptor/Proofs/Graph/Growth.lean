/-
What replaces an edge, spelled out: which nodes are added, and which edges out of which nodes, in
order. Main statements: taking a graph apart by one edge does this and no more
(`exists_decompose`), and fails only where no rule is found for the pattern of the edge
(`decompose_eq_error`).
-/
import Mathlib.Logic.Relation
import Acceptor.Proofs.Graph.Rewriting

namespace Acceptor

variable {P : Label → Prop} {g g' g₁ g₂ : Graph} {nodes : List Node} {n : Node} {x : Edge}
  {ls ls' : List (Nat × Edge)} {i j source target next k k' : Nat} {p : Pattern} {d : Decomposition}

/-! ## Adding nodes and edges -/

/-- A node as it is added. -/
def Node.blank (i : Nat) : Node := ⟨i, s!"q{i}", false, false, []⟩

/-- A node with more edges behind its own. -/
def Node.gain (n : Node) (es : List Edge) : Node := { n with edges := n.edges ++ es }

/-- A node without the edge at a place. -/
def Node.lose (n : Node) (index : Nat) : Node := { n with edges := n.edges.eraseIdx index }

/-- Those of some edges that leave one node, in order. -/
def edgesFrom (i : Nat) (ls : List (Nat × Edge)) : List Edge :=
  (ls.filter (·.1 = i)).map (·.2)

@[simp] theorem edgesFrom_nil : edgesFrom i [] = [] := rfl

@[simp] theorem edgesFrom_append : edgesFrom i (ls ++ ls') = edgesFrom i ls ++ edgesFrom i ls' := by
  rw [edgesFrom, List.filter_append, List.map_append, edgesFrom, edgesFrom]

theorem edgesFrom_singleton : edgesFrom i [(source, x)] = if source = i then [x] else [] := by
  by_cases h : source = i <;> simp [edgesFrom, h]

theorem mem_edgesFrom : x ∈ edgesFrom i ls ↔ (i, x) ∈ ls := by
  simp [edgesFrom]

/-- Nothing is added where no edge leaves. -/
theorem edgesFrom_eq_nil (h : ∀ l ∈ ls, l.1 ≠ i) : edgesFrom i ls = [] := by
  rw [List.eq_nil_iff_forall_not_mem]
  exact fun x hx => h _ (mem_edgesFrom.1 hx) rfl

@[simp] theorem Node.gain_nil (n : Node) : n.gain [] = n := by
  rw [Node.gain, List.append_nil]

@[simp] theorem Node.gain_gain (n : Node) (es fs : List Edge) :
    (n.gain es).gain fs = n.gain (es ++ fs) := by
  rw [Node.gain, Node.gain, Node.gain, List.append_assoc]

namespace Graph

/-- A graph after `k` nodes are added, and edges out of old and new ones. -/
structure Grown (g g' : Graph) (k : Nat) (ls : List (Nat × Edge)) : Prop where
  history_eq : g'.history = g.history
  size_eq : g'.size = g.size + k
  source_lt : ∀ l ∈ ls, l.1 < g'.size
  old : ∀ (i : Nat) (n : Node), g.nodes[i]? = some n → g'.nodes[i]? = some (n.gain (edgesFrom i ls))
  new : ∀ i : Nat, g.size ≤ i → i < g'.size →
    g'.nodes[i]? = some ((Node.blank i).gain (edgesFrom i ls))

theorem grown_refl (g : Graph) : Grown g g 0 [] where
  history_eq := rfl
  size_eq := rfl
  source_lt := List.forall_mem_nil _
  old i n hn := by rw [edgesFrom_nil, Node.gain_nil, hn]
  new i hle hlt := absurd hlt (Nat.not_lt.2 hle)

/-- Additions one after the other are one addition. -/
theorem Grown.trans (h₁ : Grown g g₁ k ls) (h₂ : Grown g₁ g₂ k' ls') :
    Grown g g₂ (k + k') (ls ++ ls') where
  history_eq := h₂.history_eq.trans h₁.history_eq
  size_eq := by rw [h₂.size_eq, h₁.size_eq, Nat.add_assoc]
  source_lt l hl := by
    rcases List.mem_append.1 hl with hl | hl
    · have := h₁.source_lt l hl
      have := h₂.size_eq
      omega
    · exact h₂.source_lt l hl
  old i n hn := by rw [h₂.old i _ (h₁.old i n hn), Node.gain_gain, edgesFrom_append]
  new i hle hlt := by
    by_cases hi : i < g₁.size
    · rw [h₂.old i _ (h₁.new i hle hi), Node.gain_gain, edgesFrom_append]
    · -- no edge that was added before leaves a node that was not there
      have hnone : edgesFrom i ls = [] :=
        edgesFrom_eq_nil fun l hl => Nat.ne_of_lt (Nat.lt_of_lt_of_le (h₁.source_lt l hl)
          (Nat.not_lt.1 hi))
      rw [h₂.new i (Nat.not_lt.1 hi) hlt, edgesFrom_append, hnone, List.nil_append]

theorem grown_addNode (g : Graph) : Grown g g.addNode 1 [] where
  history_eq := rfl
  size_eq := size_addNode g
  source_lt := List.forall_mem_nil _
  old i n hn := by
    have hi : i ≠ g.size := Nat.ne_of_lt (List.getElem?_eq_some_iff.1 hn).1
    rw [getElem?_addNode, if_neg hi, hn, edgesFrom_nil, Node.gain_nil]
  new i hle hlt := by
    rw [size_addNode] at hlt
    rw [getElem?_addNode, if_pos (Nat.le_antisymm (Nat.lt_succ_iff.1 hlt) hle), edgesFrom_nil,
      Node.gain_nil, Node.blank]

/-- An edge is added where its source is there. -/
theorem exists_addEdge (target : Nat) (s : Inscription) (hs : source < g.size) :
    ∃ g', g.addEdge source target s = .ok g' ∧ Grown g g' 0 [(source, ⟨target, s⟩)] := by
  obtain ⟨g', hg⟩ : ∃ g', g.addEdge source target s = .ok g' :=
    ⟨_, addEdge_eq_ok_iff.2 ⟨hs, rfl⟩⟩
  have hsize : g'.size = g.size := size_of_modifyNode hg
  refine ⟨g', hg, history_of_modifyNode hg, hsize, ?_, fun i n hn => ?_, fun i hle hlt => ?_⟩
  · rw [hsize]
    exact List.forall_mem_singleton.2 hs
  · rw [getElem?_of_modifyNode hg, hn, edgesFrom_singleton, Option.map_some]
    split
    · rfl
    · rw [Node.gain_nil]
  · exact absurd hlt (by rw [hsize]; exact Nat.not_lt.2 hle)

end Graph

/-! ## What replaces an edge -/

/-- An edge that carries a pattern, with its source. -/
def linkFor (source target : Nat) (p : Pattern) : Nat × Edge := (source, ⟨target, .ofPattern p⟩)

/-- The edges of a chain, the inner nodes of which are numbered from `next`. -/
def chainLinks (source target next : Nat) : List Pattern → List (Nat × Edge)
  | [] => []
  | [last] => [linkFor source target last]
  | p :: rest => linkFor source next p :: chainLinks next target (next + 1) rest

namespace Decomposition

/-- How many nodes are added to a graph when an edge is replaced. -/
def newNodes : Decomposition → Nat
  | repetition _ _ => 1
  | chain pieces => pieces.length - 1
  | _ => 0

/-- The edges that replace an edge, each with its source, where new nodes are numbered from
`next`. -/
def links (source target next : Nat) : Decomposition → List (Nat × Edge)
  | group inner => [linkFor source target inner]
  | union parts => parts.map (linkFor source target)
  | repetition .plus operand =>
    [linkFor source next operand, (next, ⟨target, .label .epsilon⟩), linkFor next next operand]
  | repetition .star operand =>
    [(source, ⟨next, .label .epsilon⟩), (next, ⟨target, .label .epsilon⟩),
      linkFor next next operand]
  | chain pieces => chainLinks source target next pieces
  | atom l => [(source, ⟨target, .label l⟩)]

end Decomposition

section Links

variable {G : Inscription → Prop}

theorem forall_chainLinks_iff {pieces : List Pattern} :
    (∀ l ∈ chainLinks source target next pieces, G l.2.inscription) ↔
      ∀ q ∈ pieces, G (.ofPattern q) := by
  induction pieces generalizing source next with
  | nil => simp [chainLinks]
  | cons q pieces ih =>
    cases pieces with
    | nil => simp [chainLinks, linkFor]
    | cons r pieces =>
      have hchain : chainLinks source target next (q :: r :: pieces) =
          linkFor source next q :: chainLinks next target (next + 1) (r :: pieces) := rfl
      rw [hchain, List.forall_mem_cons, ih, List.forall_mem_cons (a := q)]
      rfl

/-- Beside labels, the edges that replace an edge carry the parts of its pattern. -/
theorem Decomposition.forall_links_iff (hlabel : ∀ l, G (.label l)) :
    (∀ l ∈ d.links source target next, G l.2.inscription) ↔ ∀ q ∈ d.parts, G (.ofPattern q) := by
  cases d with
  | group inner => simp [links, parts, linkFor]
  | union ps => simp [links, parts, linkFor]
  | repetition r operand => cases r <;> simp [links, parts, linkFor, hlabel]
  | chain pieces => exact forall_chainLinks_iff
  | atom l => simp [links, parts, hlabel]

theorem chainLinks_between {pieces : List Pattern} {l : Nat × Edge}
    (h : l ∈ chainLinks source target next pieces) :
    (l.1 = source ∨ next ≤ l.1 ∧ l.1 < next + (pieces.length - 1)) ∧
      (l.2.target = target ∨ next ≤ l.2.target ∧ l.2.target < next + (pieces.length - 1)) := by
  induction pieces generalizing source next with
  | nil => cases h
  | cons q pieces ih =>
    cases pieces with
    | nil =>
      rw [List.mem_singleton.1 h]
      exact ⟨.inl rfl, .inl rfl⟩
    | cons r pieces =>
      simp only [List.length_cons] at ih ⊢
      rcases List.mem_cons.1 h with rfl | h
      · exact ⟨.inl rfl, .inr ⟨Nat.le_refl _, by simp only [linkFor]; omega⟩⟩
      · obtain ⟨h₁, h₂⟩ := ih h
        omega

/-- What replaces an edge leads from its source to its target, through new nodes. -/
theorem Decomposition.links_between {l : Nat × Edge} (h : l ∈ d.links source target next) :
    (l.1 = source ∨ next ≤ l.1 ∧ l.1 < next + d.newNodes) ∧
      (l.2.target = target ∨ next ≤ l.2.target ∧ l.2.target < next + d.newNodes) := by
  cases d with
  | group inner =>
    rw [List.mem_singleton.1 h]
    exact ⟨.inl rfl, .inl rfl⟩
  | union ps =>
    obtain ⟨q, -, rfl⟩ := List.mem_map.1 h
    exact ⟨.inl rfl, .inl rfl⟩
  | repetition r operand =>
    cases r <;> simp only [links, List.mem_cons, List.not_mem_nil, or_false] at h <;>
      rcases h with rfl | rfl | rfl <;> simp [linkFor, newNodes]
  | chain pieces => exact chainLinks_between h
  | atom l =>
    rw [List.mem_singleton.1 h]
    exact ⟨.inl rfl, .inl rfl⟩

end Links

namespace Graph

theorem exists_addUnion (target : Nat) (parts : List Pattern) (hs : source < g.size) :
    ∃ g', parts.foldlM (fun g part => g.addPattern source target part) g = .ok g' ∧
      Grown g g' 0 (parts.map (linkFor source target)) := by
  induction parts generalizing g with
  | nil => exact ⟨g, rfl, grown_refl g⟩
  | cons q parts ih =>
    obtain ⟨g₁, hg₁, h₁⟩ := exists_addEdge target (.ofPattern q) hs
    obtain ⟨g₂, hg₂, h₂⟩ := ih (by rw [h₁.size_eq]; exact hs)
    refine ⟨g₂, ?_, h₁.trans h₂⟩
    rw [List.foldlM_cons]
    exact bind_eq_ok_iff.2 ⟨g₁, hg₁, hg₂⟩

theorem exists_addChain (target : Nat) (pieces : List Pattern) (hs : source < g.size) :
    ∃ g', g.addChain source target pieces = .ok g' ∧
      Grown g g' (pieces.length - 1) (chainLinks source target g.size pieces) := by
  induction pieces generalizing g source with
  | nil => exact ⟨g, rfl, grown_refl g⟩
  | cons q pieces ih =>
    cases pieces with
    | nil => exact exists_addEdge target (.ofPattern q) hs
    | cons r pieces =>
      have h₁ := grown_addNode g
      have hs₁ : source < g.addNode.size := by rw [h₁.size_eq]; omega
      obtain ⟨g₂, hg₂, h₂⟩ := exists_addEdge g.size (.ofPattern q) hs₁
      have hsize : g₂.size = g.size + 1 := (h₁.trans h₂).size_eq
      have hs₂ : g.size < g₂.size := by omega
      obtain ⟨g₃, hg₃, h₃⟩ := ih hs₂
      refine ⟨g₃, bind_eq_ok_iff.2 ⟨g₂, hg₂, hg₃⟩, ?_⟩
      have h := (h₁.trans h₂).trans h₃
      rw [hsize] at h
      have hlen : 1 + 0 + ((r :: pieces).length - 1) = (q :: r :: pieces).length - 1 := by
        simp only [List.length_cons]
        omega
      rwa [hlen] at h

/-- A new node is entered over an edge, left without reading, and has a loop. -/
theorem exists_addLoop (target : Nat) (s : Inscription) (operand : Pattern)
    (hs : source < g.size) : ∃ g₁ g₂ g₃, g.addNode.addEdge source g.size s = .ok g₁ ∧
      g₁.addLabel g.size target .epsilon = .ok g₂ ∧
      g₂.addPattern g.size g.size operand = .ok g₃ ∧
      Grown g g₃ 1 [(source, ⟨g.size, s⟩), (g.size, ⟨target, .label .epsilon⟩),
        linkFor g.size g.size operand] := by
  have h₀ := grown_addNode g
  have hs₀ : source < g.addNode.size := by rw [h₀.size_eq]; omega
  obtain ⟨g₁, hg₁, h₁⟩ := exists_addEdge g.size s hs₀
  have hs₁ : g.size < g₁.size := by rw [(h₀.trans h₁).size_eq]; omega
  obtain ⟨g₂, hg₂, h₂⟩ := exists_addEdge target (.label .epsilon) hs₁
  have hs₂ : g.size < g₂.size := by rw [((h₀.trans h₁).trans h₂).size_eq]; omega
  obtain ⟨g₃, hg₃, h₃⟩ := exists_addEdge g.size (.ofPattern operand) hs₂
  exact ⟨g₁, g₂, g₃, hg₁, hg₂, hg₃, ((h₀.trans h₁).trans h₂).trans h₃⟩

/-- What replaces an edge is added where the source of the edge is there. -/
theorem exists_addDecomposition (target : Nat) (d : Decomposition) (hs : source < g.size) :
    ∃ g', g.addDecomposition source target d = .ok g' ∧
      Grown g g' d.newNodes (d.links source target g.size) := by
  cases d with
  | group inner => exact exists_addEdge target (.ofPattern inner) hs
  | union parts => exact exists_addUnion target parts hs
  | chain pieces => exact exists_addChain target pieces hs
  | atom l => exact exists_addEdge target (.label l) hs
  | repetition r operand =>
    cases r with
    | plus =>
      obtain ⟨g₁, g₂, g₃, hg₁, hg₂, hg₃, h⟩ := exists_addLoop target (.ofPattern operand) operand hs
      exact ⟨g₃, bind_eq_ok_iff.2 ⟨g₁, hg₁, bind_eq_ok_iff.2 ⟨g₂, hg₂, hg₃⟩⟩, h⟩
    | star =>
      obtain ⟨g₁, g₂, g₃, hg₁, hg₂, hg₃, h⟩ := exists_addLoop target (.label .epsilon) operand hs
      exact ⟨g₃, bind_eq_ok_iff.2 ⟨g₁, hg₁, bind_eq_ok_iff.2 ⟨g₂, hg₂, hg₃⟩⟩, h⟩

/-! ## One edge taken apart -/

/-- An edge out of the node at a position. -/
def HasEdge (nodes : List Node) (i : Nat) (x : Edge) : Prop := ∃ n, nodes[i]? = some n ∧ x ∈ n.edges

theorem HasEdge.lt (h : HasEdge nodes i x) : i < nodes.length := by
  obtain ⟨n, hn, -⟩ := h
  exact (List.getElem?_eq_some_iff.1 hn).1

/-- The edge to take apart is there. -/
theorem Sound.hasEdge (h : g.Sound P) {e : PendingEdge} (he : g.firstPending? = some e) :
    HasEdge g.nodes e.source ⟨e.target, .pattern e.pattern⟩ := by
  obtain ⟨n, hn, hedge⟩ := h.of_firstPending? he
  exact ⟨n, hn, List.mem_of_getElem? hedge⟩

theorem Sound.pattern_sound (h : g.Sound P) {e : PendingEdge} (he : g.firstPending? = some e) :
    e.pattern.Sound P := by
  obtain ⟨n, hn, hx⟩ := h.hasEdge he
  exact h.inscription n (List.mem_of_getElem? hn) _ hx

/-- A graph after an edge is replaced as a rule says, before the step is recorded: the edge is
gone, and what replaces it comes after the other edges of the nodes that it leaves. -/
structure Stepped (g : Graph) (e : PendingEdge) (d : Decomposition) (g' : Graph) : Prop where
  history_eq : g'.history = g.history
  size_eq : g'.size = g.size + d.newNodes
  old : ∀ (i : Nat) (n : Node), g.nodes[i]? = some n → g'.nodes[i]? =
    some ((if e.source = i then n.lose e.index else n).gain
      (edgesFrom i (d.links e.source e.target g.size)))
  new : ∀ i : Nat, g.size ≤ i → i < g'.size →
    g'.nodes[i]? = some ((Node.blank i).gain (edgesFrom i (d.links e.source e.target g.size)))
  source_lt : ∀ l ∈ d.links e.source e.target g.size, l.1 < g'.size

/-- Where there is a rule for the first edge to take apart, the edge is replaced as the rule says,
and the step is recorded. -/
theorem exists_decompose (h : g.Sound P) {e : PendingEdge} (he : g.firstPending? = some e)
    (hd : Decomposition.ofPattern e.pattern = .ok d) :
    ∃ g' comment, Stepped g e d g' ∧ g.decompose e = .ok (g'.snapshot comment) := by
  obtain ⟨n, hn, hedge⟩ := h.of_firstPending? he
  have hs : e.source < g.size := (List.getElem?_eq_some_iff.1 hn).1
  obtain ⟨g₁, hg₁⟩ : ∃ g₁, g.removeEdge e.source e.index = .ok g₁ :=
    ⟨_, removeEdge_eq_ok_iff.2 ⟨n, _, hn, hedge, modifyNode_eq_ok_iff.2 ⟨hs, rfl⟩⟩⟩
  obtain ⟨-, -, -, -, hmodify⟩ := removeEdge_eq_ok_iff.1 hg₁
  have hsize : g₁.size = g.size := size_of_modifyNode hmodify
  obtain ⟨g₂, hg₂, hgrown⟩ := exists_addDecomposition e.target d (hsize.symm ▸ hs)
  rw [hsize] at hgrown
  obtain ⟨comment, hcomment⟩ : ∃ comment, g.decompose e = .ok (g₂.snapshot comment) :=
    ⟨_, bind_eq_ok_iff.2 ⟨d, mapError_eq_ok_iff.2 hd,
      bind_eq_ok_iff.2 ⟨g₁, hg₁, bind_eq_ok_iff.2 ⟨g₂, hg₂, rfl⟩⟩⟩⟩
  refine ⟨g₂, comment, ⟨?_, ?_, fun i n hn => ?_, fun i hle => ?_, hgrown.source_lt⟩, hcomment⟩
  · exact hgrown.history_eq.trans (history_of_modifyNode hmodify)
  · rw [hgrown.size_eq, hsize]
  · refine hgrown.old i _ ?_
    rw [getElem?_of_modifyNode hmodify, hn, Option.map_some]
    rfl
  · exact hgrown.new i (hsize.symm ▸ hle)

theorem exists_stepped (h : g.Sound P) {e : PendingEdge} (he : g.firstPending? = some e)
    (hg : g.decompose e = .ok g') : ∃ d g₁ comment,
      Decomposition.ofPattern e.pattern = .ok d ∧ Stepped g e d g₁ ∧ g' = g₁.snapshot comment := by
  obtain ⟨d, -, -, -, hd, -⟩ := of_decompose hg
  obtain ⟨g₁, comment, hstep, hg₁⟩ := exists_decompose h he hd
  cases hg.symm.trans hg₁
  exact ⟨d, g₁, comment, hd, hstep, rfl⟩

/-- Where there is no rule for an edge, that is the fault. -/
theorem decompose_eq_error {e : PendingEdge} {cause : SyntaxError}
    (h : Decomposition.ofPattern e.pattern = .error cause) :
    g.decompose e = .error (.expression cause) :=
  bind_eq_error_iff.2 (.inl (by rw [h, Except.mapError]))

/-- Taking apart the first edge fails only where there is no rule for it. -/
theorem of_decompose_eq_error (h : g.Sound P) {e : PendingEdge} (he : g.firstPending? = some e)
    {fault : Error} (herror : g.decompose e = .error fault) :
    ∃ cause, Decomposition.ofPattern e.pattern = .error cause ∧ fault = .expression cause := by
  match hd : Decomposition.ofPattern e.pattern with
  | .error cause =>
    cases (decompose_eq_error hd).symm.trans herror
    exact ⟨cause, rfl, rfl⟩
  | .ok d =>
    obtain ⟨g', comment, -, hok⟩ := exists_decompose h he hd
    cases hok.symm.trans herror

/-- Edges are those that are kept and the one that is replaced, and then those that are kept and
those that replace it. -/
theorem Stepped.exists_kept (h : g.Sound P) {e : PendingEdge} (he : g.firstPending? = some e)
    (hstep : Stepped g e d g') : ∃ kept : Nat → Edge → Prop,
      (∀ i x, HasEdge g.nodes i x ↔
        kept i x ∨ i = e.source ∧ x = ⟨e.target, .pattern e.pattern⟩) ∧
      ∀ i x, HasEdge g'.nodes i x ↔ kept i x ∨ (i, x) ∈ d.links e.source e.target g.size := by
  obtain ⟨n, hn, hedge⟩ := h.of_firstPending? he
  refine ⟨fun i x => ∃ n, g.nodes[i]? = some n ∧
    x ∈ (if e.source = i then n.lose e.index else n).edges, fun i x => ⟨?_, ?_⟩,
    fun i x => ⟨?_, ?_⟩⟩
  · rintro ⟨n', hn', hx⟩
    by_cases hi : e.source = i
    · subst hi
      cases hn.symm.trans hn'
      obtain ⟨j, hj⟩ := List.mem_iff_getElem?.1 hx
      by_cases hji : j = e.index
      · subst hji
        cases hedge.symm.trans hj
        exact .inr ⟨rfl, rfl⟩
      · refine .inl ⟨n, hn, ?_⟩
        rw [if_pos rfl]
        exact List.mem_eraseIdx_iff_getElem?.2 ⟨j, hji, hj⟩
    · exact .inl ⟨n', hn', by rwa [if_neg hi]⟩
  · rintro (⟨n', hn', hx⟩ | ⟨rfl, rfl⟩)
    · split at hx
      · exact ⟨n', hn', List.mem_of_mem_eraseIdx hx⟩
      · exact ⟨n', hn', hx⟩
    · exact ⟨n, hn, List.mem_of_getElem? hedge⟩
  · rintro ⟨n', hn', hx⟩
    by_cases hi : i < g.size
    · rw [hstep.old i _ (List.getElem?_eq_getElem hi)] at hn'
      cases hn'
      rcases List.mem_append.1 hx with hx | hx
      · exact .inl ⟨_, List.getElem?_eq_getElem hi, hx⟩
      · exact .inr (mem_edgesFrom.1 hx)
    · rw [hstep.new i (Nat.not_lt.1 hi) (List.getElem?_eq_some_iff.1 hn').1] at hn'
      cases hn'
      exact .inr (mem_edgesFrom.1 hx)
  · rintro (⟨n', hn', hx⟩ | hl)
    · exact ⟨_, hstep.old i n' hn', List.mem_append_left _ hx⟩
    · by_cases hi : i < g.size
      · exact ⟨_, hstep.old i _ (List.getElem?_eq_getElem hi),
          List.mem_append_right _ (mem_edgesFrom.2 hl)⟩
      · exact ⟨_, hstep.new i (Nat.not_lt.1 hi) (hstep.source_lt _ hl),
          List.mem_append_right _ (mem_edgesFrom.2 hl)⟩

end Graph

end Acceptor
