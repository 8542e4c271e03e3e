/-
The shape of a graph under construction: one way in, one way out, and every node on a path from
the one to the other. Main statements: an edge taken apart is a path through the new nodes
(`links_lead`), so each step keeps the shape (`Stepped.shape`), and the history of an
expression goes from snapshot to snapshot by replacing the first edge that is still to be taken
apart (`shape_of_ofExpression`).
-/
import Acceptor.Proofs.Graph.Growth

namespace Acceptor.Graph

variable {P : Label → Prop} {first : Snapshot} {L : Meaning → Language Char} {g g' : Graph}
  {nodes : List Node} {E E' : Nat → Edge → Prop} {i j k source target index next : Nat}
  {p : Pattern} {d : Decomposition}

/-! ## Paths -/

/-- One of some edges joins two nodes. -/
def Joins (E : Nat → Edge → Prop) (i j : Nat) : Prop := ∃ x, E i x ∧ x.target = j

/-- Some edges in line lead from one node to another. -/
abbrev Leads (E : Nat → Edge → Prop) : Nat → Nat → Prop := Relation.ReflTransGen (Joins E)

theorem Leads.single {x : Edge} (h : E i x) (ht : x.target = j) : Leads E i j :=
  Relation.ReflTransGen.single ⟨x, h, ht⟩

/-- A path stays a path where each of its edges is still one. -/
theorem Leads.mono (h : Leads E i j) (hE : ∀ i x, E i x → Leads E' i x.target) : Leads E' i j := by
  induction h with
  | refl => exact .refl
  | tail _ hj ih =>
    obtain ⟨x, hx, rfl⟩ := hj
    exact ih.trans (hE _ x hx)

/-- The edges of a list of edges with their sources. -/
def InList (ls : List (Nat × Edge)) (i : Nat) (x : Edge) : Prop := (i, x) ∈ ls

theorem chainLinks_lead (source next : Nat) {pieces : List Pattern} (hne : pieces ≠ []) :
    Leads (InList (chainLinks source target next pieces)) source target ∧
      ∀ k, next ≤ k → k < next + (pieces.length - 1) →
        Leads (InList (chainLinks source target next pieces)) source k ∧
          Leads (InList (chainLinks source target next pieces)) k target := by
  induction pieces generalizing source next with
  | nil => exact absurd rfl hne
  | cons q pieces ih =>
    cases pieces with
    | nil =>
      refine ⟨.single List.mem_cons_self rfl, fun k hle hlt => ?_⟩
      exact absurd hlt (Nat.not_lt.2 hle)
    | cons r pieces =>
      obtain ⟨hrest, hinner⟩ := ih next (next + 1) (List.cons_ne_nil _ _)
      -- the rest of the chain starts at the first new node
      have htail : ∀ {i j}, Leads (InList (chainLinks next target (next + 1) (r :: pieces))) i j →
          Leads (InList (chainLinks source target next (q :: r :: pieces))) i j :=
        fun h => h.mono fun i x hx => .single (List.mem_cons_of_mem _ hx) rfl
      have hfirst : Leads (InList (chainLinks source target next (q :: r :: pieces))) source next :=
        .single List.mem_cons_self rfl
      refine ⟨hfirst.trans (htail hrest), fun k hle hlt => ?_⟩
      rcases Nat.eq_or_lt_of_le hle with rfl | hlt'
      · exact ⟨hfirst, htail hrest⟩
      · simp only [List.length_cons] at hlt hinner
        obtain ⟨h₁, h₂⟩ := hinner k hlt' (by omega)
        exact ⟨hfirst.trans (htail h₁), htail h₂⟩

/-- What replaces an edge is a path from its source to its target, and every new node is on one. -/
theorem links_lead (source target next : Nat) (h : Reading p d) :
    Leads (InList (d.links source target next)) source target ∧
      ∀ k, next ≤ k → k < next + d.newNodes →
        Leads (InList (d.links source target next)) source k ∧
          Leads (InList (d.links source target next)) k target := by
  have hnone : ∀ {Q : Nat → Prop} (k : Nat), next ≤ k → k < next + 0 → Q k :=
    fun k hle hlt => absurd hlt (Nat.not_lt.2 hle)
  cases h with
  | empty => exact ⟨.single List.mem_cons_self rfl, hnone⟩
  | atom => exact ⟨.single List.mem_cons_self rfl, hnone⟩
  | group => exact ⟨.single List.mem_cons_self rfl, hnone⟩
  | union => exact ⟨.single List.mem_cons_self rfl, hnone⟩
  | @repetition operand r =>
    obtain ⟨s, hs⟩ : ∃ s, Decomposition.links source target next (.repetition r operand) =
        [(source, ⟨next, s⟩), (next, ⟨target, .label .epsilon⟩), linkFor next next operand] := by
      cases r <;> exact ⟨_, rfl⟩
    rw [hs]
    have hin : Leads (InList [(source, ⟨next, s⟩), (next, ⟨target, .label .epsilon⟩),
        linkFor next next operand]) source next := .single List.mem_cons_self rfl
    have hout : Leads (InList [(source, ⟨next, s⟩), (next, ⟨target, .label .epsilon⟩),
        linkFor next next operand]) next target :=
      .single (List.mem_cons_of_mem _ List.mem_cons_self) rfl
    refine ⟨hin.trans hout, fun k hle hlt => ?_⟩
    obtain rfl : k = next := Nat.le_antisymm (Nat.lt_succ_iff.1 hlt) hle
    exact ⟨hin, hout⟩
  | chain hlen => exact chainLinks_lead source next (List.ne_nil_of_length_pos (by omega))

/-! ## The shape -/

/-- Nodes at their positions, the first of which is the only start node and is not entered, the
second the only final node and is not left, and each of which is on a path between these two. -/
structure Shape (nodes : List Node) : Prop where
  two_le : 2 ≤ nodes.length
  placed : ∀ (i : Nat) (n : Node), nodes[i]? = some n → n.Placed i
  target_lt : ∀ i x, HasEdge nodes i x → x.target < nodes.length
  not_entered : ∀ i x, HasEdge nodes i x → x.target ≠ 0
  not_left : ∀ x, ¬ HasEdge nodes 1 x
  between : ∀ i < nodes.length, Leads (HasEdge nodes) 0 i ∧ Leads (HasEdge nodes) i 1

theorem shape_singleEdge : Shape (singleEdge p) := by
  have hedge : ∀ i x, HasEdge (singleEdge p) i x → i = 0 ∧ x.target = 1 := by
    rintro i x ⟨n, hn, hx⟩
    match i, hn with
    | 0, hn =>
      cases hn
      rw [List.mem_singleton.1 hx]
      exact ⟨rfl, rfl⟩
    | 1, hn =>
      cases hn
      cases hx
  have hleads : Leads (HasEdge (singleEdge p)) 0 1 :=
    .single ⟨_, rfl, List.mem_cons_self⟩ rfl
  refine ⟨Nat.le_refl 2, fun i n hn => ?_, fun i x hx => ?_, fun i x hx => ?_, fun x hx => ?_,
    fun i hi => ?_⟩
  · match i, hn with
    | 0, hn => cases hn; exact ⟨rfl, rfl, rfl, rfl⟩
    | 1, hn => cases hn; exact ⟨rfl, rfl, rfl, rfl⟩
  · rw [(hedge i x hx).2]
    exact Nat.one_lt_two
  · rw [(hedge i x hx).2]
    exact Nat.one_ne_zero
  · exact absurd (hedge 1 x hx).1 Nat.one_ne_zero
  · match i, hi with
    | 0, _ => exact ⟨.refl, hleads⟩
    | 1, _ => exact ⟨hleads, .refl⟩

/-- Taking an edge apart keeps the shape. -/
theorem Stepped.shape (h : g.Sound P) (hshape : Shape g.nodes) (h' : g'.Sound P) {e : PendingEdge}
    (he : g.firstPending? = some e) (hd : Reading e.pattern d) (hstep : Stepped g e d g') :
    Shape g'.nodes := by
  obtain ⟨kept, hbefore, hafter⟩ := hstep.exists_kept h he
  obtain ⟨hlinks, hnew⟩ := links_lead e.source e.target g.size hd
  have hreplaced : HasEdge g.nodes e.source ⟨e.target, .pattern e.pattern⟩ :=
    (hbefore _ _).2 (.inr ⟨rfl, rfl⟩)
  have hsource : e.source ≠ 1 := fun hs => hshape.not_left _ (hs ▸ hreplaced)
  have htarget : e.target ≠ 0 := hshape.not_entered _ _ hreplaced
  have htwo : 2 ≤ g.size := h.two_le
  have hpath : ∀ {i j}, Leads (InList (d.links e.source e.target g.size)) i j →
      Leads (HasEdge g'.nodes) i j :=
    fun hij => hij.mono fun i x hx => .single ((hafter i x).2 (.inr hx)) rfl
  have hold : ∀ {i j}, Leads (HasEdge g.nodes) i j → Leads (HasEdge g'.nodes) i j := by
    refine fun hij => hij.mono fun i x hx => ?_
    rcases (hbefore i x).1 hx with hx | ⟨rfl, rfl⟩
    · exact .single ((hafter i x).2 (.inl hx)) rfl
    · exact hpath hlinks
  refine ⟨h'.two_le, h'.placed, ?_, fun i x hx => ?_, fun x hx => ?_, fun i hi => ?_⟩
  · rintro i x ⟨n, hn, hx⟩
    exact h'.target_lt n (List.mem_of_getElem? hn) x hx
  · rcases (hafter i x).1 hx with hx | hx
    · exact hshape.not_entered i x ((hbefore i x).2 (.inl hx))
    · obtain ⟨-, ht | ht⟩ := Decomposition.links_between hx
      · exact ht ▸ htarget
      · have hle : g.size ≤ x.target := ht.1
        omega
  · rcases (hafter 1 x).1 hx with hx | hx
    · exact hshape.not_left x ((hbefore 1 x).2 (.inl hx))
    · obtain ⟨hs | hs, -⟩ := Decomposition.links_between hx
      · exact hsource hs.symm
      · exact absurd hs.1 (by omega)
  · by_cases hlt : i < g.size
    · obtain ⟨h₀, h₁⟩ := hshape.between i hlt
      exact ⟨hold h₀, hold h₁⟩
    · have hsize := hstep.size_eq
      obtain ⟨h₀, h₁⟩ := hnew i (Nat.not_lt.1 hlt) (hsize ▸ hi)
      exact ⟨(hold (hshape.between _ hreplaced.lt).1).trans (hpath h₀),
        (hpath h₁).trans (hold (hshape.between _ (hshape.target_lt _ _ hreplaced)).2)⟩

/-! ## From snapshot to snapshot -/

/-- The edge at a place is the first that is still to be taken apart: nodes by position, edges in
order. -/
structure IsFirstPending (nodes : List Node) (source index : Nat) : Prop where
  pending : ∃ n x, nodes[source]? = some n ∧ n.edges[index]? = some x ∧
    x.inscription.isPending = true
  first : ∀ i j n x, nodes[i]? = some n → n.edges[j]? = some x → x.inscription.isPending = true →
    source < i ∨ source = i ∧ index ≤ j

/-- The first edge that is still to be taken apart is replaced: it is removed, and edges are added
after the others of its source and to new nodes. Nothing else changes. -/
def Replaced (nodes nodes' : List Node) : Prop :=
  ∃ source index, IsFirstPending nodes source index ∧ nodes.length ≤ nodes'.length ∧
    ∀ i n, nodes[i]? = some n → ∃ new : List Edge,
      nodes'[i]? = some ((if source = i then n.lose index else n).gain new) ∧
        (source ≠ i → new = [])

theorem le_of_first? {es : List Edge} {e : PendingEdge} {x : Edge}
    (h : PendingEdge.first? source index es = some e) (hx : es[j]? = some x)
    (hp : x.inscription.isPending = true) : e.index ≤ index + j := by
  fun_induction PendingEdge.first? source index es generalizing j with
  | case1 => cases h
  | case2 =>
    cases h
    exact Nat.le_add_right _ _
  | case3 index target l rest ih =>
    cases j with
    | zero =>
      cases hx
      cases hp
    | succ j =>
      have := ih h hx
      omega

theorem Sound.isFirstPending (h : g.Sound P) {e : PendingEdge} (he : g.firstPending? = some e) :
    IsFirstPending g.nodes e.source e.index := by
  obtain ⟨n, hn, hedge⟩ := h.of_firstPending? he
  refine ⟨⟨n, _, hn, hedge, rfl⟩, fun i j n' x hn' hx hp => ?_⟩
  obtain ⟨before, m, after, hnodes, hfirst, hnone⟩ := List.findSome?_eq_some_iff.1 he
  -- the nodes before the source have no edge to take apart
  have hm : g.nodes[before.length]? = some m := by rw [hnodes]; simp
  have hsource : e.source = before.length :=
    (PendingEdge.of_first? hfirst).1.trans (h.placed _ m hm).id_eq
  rcases Nat.lt_trichotomy i e.source with hi | rfl | hi
  · have hmem : n' ∈ before := by
      rw [hnodes, List.getElem?_append_left (hsource ▸ hi)] at hn'
      exact List.mem_of_getElem? hn'
    obtain ⟨l, hl⟩ := PendingEdge.first?_eq_none (hnone n' hmem) x (List.mem_of_getElem? hx)
    rw [hl] at hp
    cases hp
  · rw [hsource, hm] at hn'
    cases hn'
    have := le_of_first? hfirst hx hp
    exact .inr ⟨rfl, by omega⟩
  · exact .inl hi

theorem Stepped.replaced (h : g.Sound P) {e : PendingEdge} (he : g.firstPending? = some e)
    (hstep : Stepped g e d g') : Replaced g.nodes g'.nodes := by
  refine ⟨e.source, e.index, h.isFirstPending he, ?_, fun i n hn => ?_⟩
  · have : g'.nodes.length = g.nodes.length + d.newNodes := hstep.size_eq
    omega
  · refine ⟨_, hstep.old i n hn, fun hi => edgesFrom_eq_nil fun l hl hli => ?_⟩
    -- what does not leave the source leaves a new node
    have hlt : i < g.size := (List.getElem?_eq_some_iff.1 hn).1
    obtain ⟨hs | hs, -⟩ := Decomposition.links_between hl
    · exact hi (hs.symm.trans hli)
    · omega

/-! ## Whole histories -/

/-- A graph whose history has numbered snapshots of the shape, each of which is the one before it
after a step. -/
structure Recorded (g : Graph) : Prop where
  shaped : ∀ (i : Nat) (s : Snapshot), g.history[i]? = some s → s.step = i ∧ Shape s.nodes
  replaced : ∀ (i : Nat) (s t : Snapshot), g.history[i]? = some s → g.history[i + 1]? = some t →
    Replaced s.nodes t.nodes

theorem recorded_of_ofPattern (hg : Graph.ofPattern p = .ok g) : Recorded g := by
  obtain ⟨-, comment, hh⟩ := nodes_of_ofPattern hg
  refine ⟨fun i s hs => ?_, fun i s t hs ht => ?_⟩ <;> rw [hh] at hs
  · cases i with
    | zero =>
      cases hs
      exact ⟨rfl, shape_singleEdge⟩
    | succ i => cases hs
  · rw [hh] at ht
    cases ht

theorem getElem?_snapshot {comment : String} {s : Snapshot} :
    (g.snapshot comment).history[i]? = some s ↔
      g.history[i]? = some s ∨ i = g.history.length ∧ s = ⟨i, comment, g.nodes⟩ := by
  rw [Graph.snapshot, List.getElem?_append]
  split
  · rename_i hlt
    exact ⟨.inl, fun h => h.resolve_right fun hi => Nat.ne_of_lt hlt hi.1⟩
  · rename_i hle
    rw [List.getElem?_eq_none (Nat.not_lt.1 hle), List.getElem?_singleton]
    simp only [reduceCtorEq, false_or]
    constructor
    · intro h
      split at h
      · cases h
        have hi : i = g.history.length := by omega
        exact ⟨hi, by rw [hi]⟩
      · cases h
    · rintro ⟨rfl, rfl⟩
      rw [Nat.sub_self, if_pos rfl]

/-- The nodes of a graph are those of its last snapshot. -/
theorem Recorded.shape (hr : Recorded g) (h : Traced P first L g) : Shape g.nodes := by
  obtain ⟨last, hlast, hnodes⟩ := h.ends
  rw [List.getLast?_eq_getElem?] at hlast
  exact hnodes ▸ (hr.shaped _ last hlast).2

/-- A step is recorded. -/
theorem Stepped.recorded (h : Traced P first L g) (hr : Recorded g) (h' : g'.Sound P)
    {e : PendingEdge} (he : g.firstPending? = some e) (hd : Reading e.pattern d)
    (hstep : Stepped g e d g') (comment : String) : Recorded (g'.snapshot comment) := by
  constructor
  · intro i s hs
    rcases getElem?_snapshot.1 hs with hs | ⟨rfl, rfl⟩
    · rw [hstep.history_eq] at hs
      exact hr.shaped i s hs
    · exact ⟨rfl, hstep.shape h.sound (hr.shape h) h' he hd⟩
  · intro i s t hs ht
    rw [getElem?_snapshot, hstep.history_eq] at hs ht
    rcases ht with ht | ⟨hi, rfl⟩
    · have hlen := (List.getElem?_eq_some_iff.1 ht).1
      exact hr.replaced i s t (hs.resolve_right fun hi => by omega) ht
    · have hs := hs.resolve_right fun h => by omega
      obtain ⟨last, hlast, hnodes⟩ := h.ends
      rw [List.getLast?_eq_getElem?, show g.history.length - 1 = i by omega] at hlast
      cases hlast.symm.trans hs
      rw [hnodes]
      exact hstep.replaced h.sound he

theorem Rewrites.recorded (h : g.Rewrites g') (hε : P .epsilon) (hg : Traced P first L g)
    (hr : Recorded g) : Recorded g' := by
  have h' := (h.traced hε hg).1
  obtain ⟨e, he, hok⟩ := h
  obtain ⟨d, g₁, comment, hd, hstep, rfl⟩ := exists_stepped hg.sound he hok
  have hsound : g₁.Sound P :=
    ⟨h'.sound.two_le, h'.sound.placed, h'.sound.target_lt, h'.sound.inscription⟩
  have hreading := reading_of_ofPattern (hg.sound.pattern_sound he).balanced hd
  exact hstep.recorded hg hr hsound he hreading comment

/-- All steps are recorded. -/
theorem RewritesIn.recorded (h : RewritesIn k g g') (hε : P .epsilon) (hg : Traced P first L g)
    (hr : Recorded g) : Recorded g' := by
  induction h with
  | zero => exact hr
  | succ hstep _ ih => exact ih (hstep.traced hε hg).1 (hstep.recorded hε hg hr)

theorem recorded_of_ofExpression {text : String} (hg : ofExpression text = .ok g) : Recorded g := by
  obtain ⟨p, hp, hg⟩ := bind_eq_ok_iff.1 hg
  obtain ⟨g₁, hg₁, hg⟩ := bind_eq_ok_iff.1 hg
  have hsound := sound_of_ofText (mapError_eq_ok_iff.1 hp)
  obtain ⟨comment, h₁⟩ := traced_of_ofPattern Label.written_epsilon hsound hg₁
  obtain ⟨k, hrun, -⟩ := rewritesIn_of_decomposeAll hg
  exact hrun.recorded Label.written_epsilon h₁ (recorded_of_ofPattern hg₁)

/-- The graph of an expression has the shape. -/
theorem shape_nodes_of_ofExpression {text : String} (hg : ofExpression text = .ok g) :
    Shape g.nodes := by
  obtain ⟨p, comment, -, -, -, h⟩ := traced_of_ofExpression hg
  exact (recorded_of_ofExpression hg).shape h

/-- The history of an expression: snapshots of the shape, numbered from 0, each of which comes
about from the one before it when the first edge that is still to be taken apart is replaced, up to
the nodes of the graph, where there is no such edge. -/
theorem shape_of_ofExpression {text : String} (hg : ofExpression text = .ok g) :
    Recorded g ∧ ∃ s, g.history.getLast? = some s ∧ s.nodes = g.nodes ∧ Atomic s.nodes := by
  obtain ⟨p, comment, -, -, hatomic, h⟩ := traced_of_ofExpression hg
  obtain ⟨last, hlast, hnodes⟩ := h.ends
  exact ⟨recorded_of_ofExpression hg, last, hlast, hnodes, hnodes ▸ hatomic⟩

theorem shape_of_nested_union : ∃ g, ofExpression "((a+b)c^)*d" = .ok g ∧
    Recorded g ∧ ∃ s, g.history.getLast? = some s ∧ s.nodes = g.nodes ∧ Atomic s.nodes := by
  have hsome : (ofExpression "((a+b)c^)*d").toOption.isSome = true := by decide +kernel
  obtain ⟨g, hg⟩ := exists_ok_of_isSome hsome
  exact ⟨g, hg, shape_of_ofExpression hg⟩

end Acceptor.Graph
