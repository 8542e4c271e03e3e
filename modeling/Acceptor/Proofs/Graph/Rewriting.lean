/-
Taking a graph apart edge by edge. Main statements: what replaces an edge leaves the paths between
all nodes that were there before as they were (`addDecomposition_extended`), so every snapshot of
the history of an expression has the words of the expression, and in the last one each edge
carries a label (`traced_of_ofExpression`).
-/
import Acceptor.Proofs.Graph.Weight
import Acceptor.Proofs.Token.Lexer

open scoped Computability

namespace Acceptor

variable {P : Label → Prop} {m : Meaning} {g g' : Graph} {source target : Nat} {p : Pattern}
  {d : Decomposition}

/-! ## Parts of a pattern -/

theorem Pattern.sound_of_subset {q : Pattern} (hb : q.Balanced) (hp : p.Sound P) (h : q ⊆ p) :
    q.Sound P :=
  ⟨hb, fun l hl => hp.atoms l (h hl)⟩

/-- The parts of a sound pattern are sound. -/
theorem Reading.parts_sound (h : Reading p d) (hp : p.Sound P) : ∀ q ∈ d.parts, q.Sound P := by
  cases h with
  | empty => simp [Decomposition.parts]
  | @group inner hb =>
    refine List.forall_mem_singleton.2 (Pattern.sound_of_subset hb hp fun t ht => ?_)
    exact List.mem_append_left _ (List.mem_cons_of_mem _ ht)
  | @union first others ho hparts =>
    intro q hq
    refine Pattern.sound_of_subset (hparts q hq).1 hp fun t ht => ?_
    rcases List.mem_cons.1 hq with rfl | hq
    · exact List.mem_append_left _ ht
    · exact List.mem_append_right _ (List.mem_flatMap.2 ⟨q, hq, List.mem_cons_of_mem _ ht⟩)
  | repetition hb hf =>
    exact List.forall_mem_singleton.2
      (Pattern.sound_of_subset hb hp (List.subset_append_left _ _))
  | chain hlen hpieces hlast =>
    intro q hq
    refine Pattern.sound_of_subset (hpieces q hq).balanced hp fun t ht => ?_
    exact List.mem_flatten.2 ⟨q, hq, ht⟩
  | atom => simp [Decomposition.parts]

theorem Reading.atom_sound {l : Label} (hε : P .epsilon) (h : Reading p (.atom l))
    (hp : p.Sound P) : P l := by
  cases h with
  | empty => exact hε
  | atom => exact hp.atoms l List.mem_cons_self

theorem Meaning.pattern_nil : m.pattern [] = 1 :=
  (m.pattern_eq .empty).trans m.label_epsilon

namespace Inscription

theorem sound_ofPattern (hε : P .epsilon) (hp : p.Sound P) : (ofPattern p).Sound P := by
  unfold ofPattern
  split
  · exact hε
  · split
    · rename_i l hl
      rw [atom?_eq_some_iff.1 hl] at hp
      exact hp.atoms l List.mem_cons_self
    · exact hp

/-- What is written for a pattern has its words. -/
theorem language_ofPattern : (ofPattern p).language m = m.pattern p := by
  unfold ofPattern
  split
  · rename_i hp
    rw [List.isEmpty_iff.1 hp, Meaning.pattern_nil]
    exact m.label_epsilon
  · split
    · rename_i l hl
      rw [atom?_eq_some_iff.1 hl]
      exact (m.pattern_eq .atom).symm
    · rfl

end Inscription

namespace Graph

/-! ## Adding what replaces an edge -/

/-- A graph after some nodes and edges are added, with its moves and what they cost at most. -/
structure Edited (P : Label → Prop) (g g' : Graph) (added : Nat) (M : Meaning → Arrows)
    (cost : Nat) : Prop where
  sound : g'.Sound P
  size_eq : g'.size = g.size + added
  history_eq : g'.history = g.history
  arrows_eq : ∀ m, arrows m g'.nodes = M m
  weight_le : g'.weight ≤ g.weight + cost

theorem edited_addNode (h : g.Sound P) : Edited P g g.addNode 1 (fun m => arrows m g.nodes) 0 :=
  ⟨h.addNode, size_addNode g, rfl, fun _ => arrows_addNode, Nat.le_of_eq weight_addNode⟩

theorem edited_addEdge {s : Inscription} (h : g.Sound P) (ht : target < g.size) (hs : s.Sound P)
    (hg : g.addEdge source target s = .ok g') : Edited P g g' 0
      (fun m => (arrows m g.nodes).add source (s.language m) target) s.weight :=
  ⟨h.addEdge ht hs hg, size_of_modifyNode hg, history_of_modifyNode hg,
    fun _ => arrows_addEdge hg, Nat.le_of_eq (weight_addEdge hg)⟩

theorem edited_addPattern (hε : P .epsilon) (h : g.Sound P) (ht : target < g.size) (hp : p.Sound P)
    (hg : g.addPattern source target p = .ok g') : Edited P g g' 0
      (fun m => (arrows m g.nodes).add source (m.pattern p) target) (3 ^ p.length) := by
  have he := edited_addEdge h ht (Inscription.sound_ofPattern hε hp) hg
  refine ⟨he.sound, he.size_eq, he.history_eq, fun m => ?_, ?_⟩
  · rw [he.arrows_eq, Inscription.language_ofPattern]
  · exact Nat.le_trans he.weight_le (Nat.add_le_add_left Inscription.weight_ofPattern_le _)

theorem edited_addLabel {l : Label} (h : g.Sound P) (ht : target < g.size) (hl : P l)
    (hg : g.addLabel source target l = .ok g') : Edited P g g' 0
      (fun m => (arrows m g.nodes).add source (m.label l) target) 0 :=
  edited_addEdge (s := .label l) h ht hl hg

/-- A graph after an edge is replaced by others, through new nodes: between all nodes from before
there are the same paths as with moves `M`. -/
structure Extended (P : Label → Prop) (g g' : Graph) (M : Meaning → Arrows) (cost : Nat) :
    Prop where
  sound : g'.Sound P
  size_le : g.size ≤ g'.size
  history_eq : g'.history = g.history
  agree : ∀ m, Arrows.Agree g.size (M m) (arrows m g'.nodes)
  weight_le : g'.weight ≤ g.weight + cost

theorem Edited.extended {M : Meaning → Arrows} {added cost : Nat} (h : Edited P g g' added M cost) :
    Extended P g g' M cost where
  sound := h.sound
  size_le := by
    rw [h.size_eq]
    exact Nat.le_add_right _ _
  history_eq := h.history_eq
  agree m := by
    rw [h.arrows_eq]
    exact .refl
  weight_le := h.weight_le

/-- Edges side by side read what any of their patterns reads. -/
theorem addUnion_edited (hε : P .epsilon) {parts : List Pattern} (h : g.Sound P)
    (ht : target < g.size) (hparts : ∀ q ∈ parts, q.Sound P)
    (hg : parts.foldlM (fun g part => g.addPattern source target part) g = .ok g') :
    Edited P g g' 0 (fun m => (arrows m g.nodes).add source
      (Decomposition.language m.label m.pattern (.union parts)) target)
      (parts.map (3 ^ ·.length)).sum := by
  induction parts generalizing g with
  | nil =>
    cases hg
    refine ⟨h, rfl, rfl, fun m => ?_, Nat.le_refl _⟩
    rw [language_union_nil, Arrows.add_zero]
  | cons q parts ih =>
    obtain ⟨hq, hparts⟩ := List.forall_mem_cons.1 hparts
    rw [List.foldlM_cons] at hg
    obtain ⟨g₁, hg₁, hg⟩ := bind_eq_ok_iff.1 hg
    have h₁ := edited_addPattern hε h ht hq hg₁
    have hsize : g₁.size = g.size := h₁.size_eq
    have h₂ := ih h₁.sound (hsize ▸ ht) hparts hg
    refine ⟨h₂.sound, h₂.size_eq.trans hsize, h₂.history_eq.trans h₁.history_eq, fun m => ?_, ?_⟩
    · rw [h₂.arrows_eq, h₁.arrows_eq, Arrows.add_add, language_union_cons]
    · have := h₁.weight_le
      have := h₂.weight_le
      rw [List.map_cons, List.sum_cons]
      omega

/-- Edges in line read a word of each of their patterns. -/
theorem addChain_extended (hε : P .epsilon) {q : Pattern} {pieces : List Pattern} (h : g.Sound P)
    (hs : source < g.size) (ht : target < g.size) (hpieces : ∀ x ∈ q :: pieces, x.Sound P)
    (hg : g.addChain source target (q :: pieces) = .ok g') :
    Extended P g g'
      (fun m => (arrows m g.nodes).add source ((q :: pieces).map m.pattern).prod target)
      ((q :: pieces).map (3 ^ ·.length)).sum := by
  induction pieces generalizing g source q with
  | nil =>
    have he := edited_addPattern hε h ht (hpieces q List.mem_cons_self) hg
    simpa using he.extended
  | cons r pieces ih =>
    obtain ⟨hq, hpieces⟩ := List.forall_mem_cons.1 hpieces
    obtain ⟨g₂, hg₂, hg⟩ := bind_eq_ok_iff.1 hg
    have h₁ := edited_addNode h
    have h₂ := edited_addPattern hε h₁.sound (by rw [h₁.size_eq]; omega) hq hg₂
    have hsize : g₂.size = g.size + 1 := h₂.size_eq.trans h₁.size_eq
    have h₃ := ih h₂.sound (by omega) (by omega) hpieces hg
    refine ⟨h₃.sound, ?_, h₃.history_eq.trans (h₂.history_eq.trans h₁.history_eq), fun m => ?_, ?_⟩
    · have := h₃.size_le
      omega
    · have hagree := h₃.agree m
      rw [hsize, h₂.arrows_eq, h₁.arrows_eq] at hagree
      rw [List.map_cons, List.prod_cons]
      -- the first edge and the chain of the others meet in the new node alone
      refine Arrows.Agree.trans (fun i k hi hk w => ?_) (hagree.mono (Nat.le_succ _))
      exact (Arrows.path_chain_iff h.fresh (Nat.ne_of_lt hs) (Nat.ne_of_lt ht) (Nat.ne_of_lt hi)
        (Nat.ne_of_lt hk)).symm
    · have := h₁.weight_le
      have := h₂.weight_le
      have := h₃.weight_le
      rw [List.map_cons, List.sum_cons]
      omega

/-- A loop at a new node reads any number of words of its pattern, after one of what leads there. -/
theorem loop_extended {g₁ g₂ g₃ : Graph} {K : Meaning → Language Char} {c : Nat}
    (hε : P .epsilon) (h : g.Sound P) (hs : source < g.size) (ht : target < g.size)
    (hp : p.Sound P)
    (h₁ : Edited P g.addNode g₁ 0 (fun m => (arrows m g.addNode.nodes).add source (K m) g.size) c)
    (hg₂ : g₁.addLabel g.size target .epsilon = .ok g₂)
    (hg₃ : g₂.addPattern g.size g.size p = .ok g₃) :
    Extended P g g₃ (fun m => (arrows m g.nodes).add source (K m * (m.pattern p)∗) target)
      (c + 3 ^ p.length) := by
  have h₀ := edited_addNode h
  have hsize₁ : g₁.size = g.size + 1 := h₁.size_eq.trans h₀.size_eq
  have h₂ := edited_addLabel h₁.sound (by omega) hε hg₂
  have hsize₂ : g₂.size = g.size + 1 := h₂.size_eq.trans hsize₁
  have h₃ := edited_addPattern hε h₂.sound (by omega) hp hg₃
  have hsize₃ : g₃.size = g.size + 1 := h₃.size_eq.trans hsize₂
  refine ⟨h₃.sound, by omega, ?_, fun m i k hi hk w => ?_, ?_⟩
  · exact h₃.history_eq.trans (h₂.history_eq.trans h₁.history_eq)
  · rw [h₃.arrows_eq, h₂.arrows_eq, h₁.arrows_eq, h₀.arrows_eq, m.label_epsilon]
    exact (Arrows.path_loop_iff h.fresh (Nat.ne_of_lt hs) (Nat.ne_of_lt ht) (Nat.ne_of_lt hi)
      (Nat.ne_of_lt hk)).symm
  · have := h₀.weight_le
    have := h₁.weight_le
    have := h₂.weight_le
    have := h₃.weight_le
    omega

/-- What replaces an edge reads what the edge did, on the way between nodes that were there
before. -/
theorem addDecomposition_extended (hε : P .epsilon) (h : g.Sound P) (hs : source < g.size)
    (ht : target < g.size) (hp : p.Sound P) (hd : Reading p d)
    (hg : g.addDecomposition source target d = .ok g') :
    Extended P g g' (fun m => (arrows m g.nodes).add source (m.pattern p) target) d.cost := by
  have hparts := hd.parts_sound hp
  have hmeaning : ∀ m : Meaning, m.pattern p = d.language m.label m.pattern :=
    fun m => m.pattern_eq hd
  simp only [hmeaning]
  match d, hg with
  | .group inner, hg =>
    exact (edited_addPattern hε h ht (hparts inner List.mem_cons_self) hg).extended
  | .union parts, hg => exact (addUnion_edited hε h ht hparts hg).extended
  | .repetition .star operand, hg =>
    obtain ⟨g₁, hg₁, hg⟩ := bind_eq_ok_iff.1 hg
    obtain ⟨g₂, hg₂, hg₃⟩ := bind_eq_ok_iff.1 hg
    have h₁ := edited_addLabel h.addNode (by rw [size_addNode]; omega) hε hg₁
    have hloop := loop_extended (K := fun m => m.label .epsilon) hε h hs ht
      (hparts operand List.mem_cons_self) h₁ hg₂ hg₃
    simpa only [Decomposition.language, Decomposition.cost, Meaning.label_epsilon, one_mul,
      Nat.zero_add] using hloop
  | .repetition .plus operand, hg =>
    obtain ⟨g₁, hg₁, hg⟩ := bind_eq_ok_iff.1 hg
    obtain ⟨g₂, hg₂, hg₃⟩ := bind_eq_ok_iff.1 hg
    have hoperand := hparts operand List.mem_cons_self
    have h₁ := edited_addPattern hε h.addNode (by rw [size_addNode]; omega) hoperand hg₁
    exact loop_extended (K := fun m => m.pattern operand) hε h hs ht hoperand h₁ hg₂ hg₃
  | .chain (q :: pieces), hg => exact addChain_extended hε h hs ht hparts hg
  | .chain [], _ =>
    cases hd with
    | chain hlen => exact absurd hlen (by decide)
  | .atom l, hg => exact (edited_addLabel h ht (hd.atom_sound hε hp) hg).extended

/-! ## Step by step -/

/-- A graph with its history: it starts with the snapshot given, ends with the nodes as they are
and has the same words throughout. -/
structure Traced (P : Label → Prop) (first : Snapshot) (L : Meaning → Language Char) (g : Graph) :
    Prop where
  sound : g.Sound P
  starts : ∃ rest, g.history = first :: rest
  ends : ∃ s, g.history.getLast? = some s ∧ s.nodes = g.nodes
  language_eq : ∀ s ∈ g.history, ∀ m, pathLanguage m s.nodes = L m

variable {first : Snapshot} {L : Meaning → Language Char}

theorem Traced.pathLanguage_eq (h : Traced P first L g) : pathLanguage m g.nodes = L m := by
  obtain ⟨s, hs, hn⟩ := h.ends
  rw [← hn]
  exact h.language_eq s (List.mem_of_getLast? hs) m

/-- A step that keeps the words is recorded. -/
theorem Traced.snapshot (h : Traced P first L g) (hsound : g'.Sound P)
    (hhistory : g'.history = g.history) (hlanguage : ∀ m, pathLanguage m g'.nodes = L m)
    (comment : String) : Traced P first L (g'.snapshot comment) := by
  have hsnapshot : (g'.snapshot comment).history =
      g.history ++ [⟨g'.history.length, comment, g'.nodes⟩] := by
    rw [Graph.snapshot, hhistory]
  refine ⟨⟨hsound.two_le, hsound.placed, hsound.target_lt, hsound.inscription⟩, ?_, ?_, ?_⟩
  · obtain ⟨rest, hrest⟩ := h.starts
    exact ⟨rest ++ [_], by rw [hsnapshot, hrest, List.cons_append]⟩
  · exact ⟨_, List.getLast?_concat, rfl⟩
  · intro s hs m
    rw [hsnapshot] at hs
    rcases List.mem_append.1 hs with hs | hs
    · exact h.language_eq s hs m
    · rw [List.mem_singleton.1 hs]
      exact hlanguage m

theorem of_decompose {e : PendingEdge} (hg : g.decompose e = .ok g') : ∃ d g₁ g₂ comment,
    Decomposition.ofPattern e.pattern = .ok d ∧ g.removeEdge e.source e.index = .ok g₁ ∧
      g₁.addDecomposition e.source e.target d = .ok g₂ ∧ g' = g₂.snapshot comment := by
  obtain ⟨d, hd, hg⟩ := bind_eq_ok_iff.1 hg
  obtain ⟨g₁, hg₁, hg⟩ := bind_eq_ok_iff.1 hg
  obtain ⟨g₂, hg₂, hg⟩ := bind_eq_ok_iff.1 hg
  cases hg
  exact ⟨d, g₁, g₂, _, mapError_eq_ok_iff.1 hd, hg₁, hg₂, rfl⟩

/-- Taking one edge apart changes no words and leaves less to take apart. -/
theorem Traced.decompose (hε : P .epsilon) (h : Traced P first L g) {e : PendingEdge}
    (he : g.firstPending? = some e) (hg : g.decompose e = .ok g') :
    Traced P first L g' ∧ g'.weight < g.weight := by
  obtain ⟨n, hn, hedge⟩ := h.sound.of_firstPending? he
  have hmem := List.mem_of_getElem? hn
  have hpattern : e.pattern.Sound P := h.sound.inscription n hmem _ (List.mem_of_getElem? hedge)
  have hs : e.source < g.size := (List.getElem?_eq_some_iff.1 hn).1
  have ht : e.target < g.size := h.sound.target_lt n hmem _ (List.mem_of_getElem? hedge)
  obtain ⟨d, g₁, g₂, comment, hd, hg₁, hg₂, rfl⟩ := of_decompose hg
  have hreading := reading_of_ofPattern hpattern.balanced hd
  obtain ⟨-, -, -, -, hmodify⟩ := removeEdge_eq_ok_iff.1 hg₁
  have hsize : g₁.size = g.size := size_of_modifyNode hmodify
  have hext := addDecomposition_extended hε (h.sound.removeEdge hg₁) (by omega) (by omega)
    hpattern hreading hg₂
  constructor
  · refine h.snapshot hext.sound (hext.history_eq.trans (history_of_modifyNode hmodify)) ?_ comment
    intro m
    ext w
    rw [← h.pathLanguage_eq, hext.sound.mem_pathLanguage_iff, h.sound.mem_pathLanguage_iff,
      arrows_removeEdge hg₁ hn hedge]
    -- words are read between the first two nodes, which were there before
    have htwo := h.sound.two_le
    exact (hext.agree m 0 1 (by omega) (by omega) w).symm
  · -- what was added weighs less than the edge that was taken away
    have hweight := weight_removeEdge hg₁ hn hedge
    have hcost := hreading.cost_lt
    have hle := hext.weight_le
    change g₂.weight < g.weight
    rw [Inscription.weight_pattern] at hweight
    omega

/-! ## The loop -/

/-- The first edge that is still to be taken apart is replaced. -/
def Rewrites (g g' : Graph) : Prop :=
  ∃ e, g.firstPending? = some e ∧ g.decompose e = .ok g'

/-- Some number of rewrites, one after the other. -/
inductive RewritesIn : Nat → Graph → Graph → Prop
  | zero {g : Graph} : RewritesIn 0 g g
  | succ {k : Nat} {g g' g'' : Graph} :
    g.Rewrites g' → RewritesIn k g' g'' → RewritesIn (k + 1) g g''

/-- No rewrite of a graph is left, and what is answered: the graph, if each edge carries a label,
or the fault of taking apart the first edge that does not. -/
def EndsWith (g : Graph) (answer : Except Error Graph) : Prop :=
  g.firstPending? = none ∧ answer = .ok g ∨
    ∃ e fault, g.firstPending? = some e ∧ g.decompose e = .error fault ∧ answer = .error fault

variable {fuel k : Nat}

/-- The loop ends, or is cut off after as many rewrites as it has fuel for, which is a fault. -/
theorem exists_rewritesIn (fuel : Nat) (g : Graph) : ∃ k last, RewritesIn k g last ∧
    ((k = fuel ∧ last.firstPending? ≠ none ∧ ∃ fault, decomposeAll fuel g = .error fault) ∨
      last.EndsWith (decomposeAll fuel g)) := by
  induction fuel generalizing g with
  | zero =>
    refine ⟨0, g, .zero, ?_⟩
    unfold decomposeAll
    split
    · rename_i hnone
      exact .inr (.inl ⟨hnone, rfl⟩)
    · rename_i e he
      rw [he]
      exact .inl ⟨rfl, Option.some_ne_none e, _, rfl⟩
  | succ fuel ih =>
    unfold decomposeAll
    split
    · rename_i hnone
      exact ⟨0, g, .zero, .inr (.inl ⟨hnone, rfl⟩)⟩
    rename_i e he
    cases hg : g.decompose e with
    | error fault => exact ⟨0, g, .zero, .inr (.inr ⟨e, fault, he, hg, rfl⟩)⟩
    | ok g₁ =>
      obtain ⟨k, last, hrun, hend⟩ := ih g₁
      refine ⟨k + 1, last, .succ ⟨e, he, hg⟩ hrun, hend.imp_left ?_⟩
      rintro ⟨rfl, hcut⟩
      exact ⟨rfl, hcut⟩

/-- The loop succeeds only at its end, whatever fuel it has. -/
theorem rewritesIn_of_decomposeAll (hg : decomposeAll fuel g = .ok g') :
    ∃ k, RewritesIn k g g' ∧ g'.firstPending? = none := by
  obtain ⟨k, last, hrun, ⟨-, -, _, herror⟩ | ⟨hnone, hok⟩ | ⟨_, _, -, -, herror⟩⟩ :=
    exists_rewritesIn fuel g
  · cases herror.symm.trans hg
  · cases hok.symm.trans hg
    exact ⟨k, hrun, hnone⟩
  · cases herror.symm.trans hg

/-- A rewrite changes no words and makes a graph lighter. -/
theorem Rewrites.traced (h : g.Rewrites g') (hε : P .epsilon) (hg : Traced P first L g) :
    Traced P first L g' ∧ g'.weight < g.weight := by
  obtain ⟨e, he, hok⟩ := h
  exact hg.decompose hε he hok

/-- Each of some rewrites takes something off the weight. -/
theorem RewritesIn.traced (h : RewritesIn k g g') (hε : P .epsilon) (hg : Traced P first L g) :
    Traced P first L g' ∧ k + g'.weight ≤ g.weight := by
  induction h with
  | zero => exact ⟨hg, by omega⟩
  | succ hstep _ ih =>
    obtain ⟨htraced, hlt⟩ := hstep.traced hε hg
    obtain ⟨htraced, hle⟩ := ih htraced
    exact ⟨htraced, by omega⟩

/-- With enough fuel all rewrites are made. -/
theorem Traced.exists_end (hε : P .epsilon) (h : Traced P first L g) (hfuel : g.weight ≤ fuel) :
    ∃ k last, RewritesIn k g last ∧ last.EndsWith (Graph.decomposeAll fuel g) := by
  obtain ⟨k, last, hrun, ⟨rfl, hpending, -⟩ | hend⟩ := exists_rewritesIn fuel g
  · -- each rewrite took something off, so nothing is left
    obtain ⟨hlast, hle⟩ := hrun.traced hε h
    exact absurd (hlast.sound.firstPending?_eq_none (by omega)) hpending
  · exact ⟨k, last, hrun, hend⟩

/-- Where the loop succeeds, all edges are taken apart. -/
theorem Traced.decomposeAll (hε : P .epsilon) (h : Traced P first L g)
    (hg : decomposeAll fuel g = .ok g') : Traced P first L g' ∧ Atomic g'.nodes := by
  obtain ⟨k, hrun, hnone⟩ := rewritesIn_of_decomposeAll hg
  exact ⟨(hrun.traced hε h).1, atomic_of_firstPending? hnone⟩

/-! ## Expressions -/

/-- The nodes of a graph that is one edge with a whole pattern. -/
def singleEdge (p : Pattern) : List Node :=
  [⟨0, "q0", true, false, [⟨1, .ofPattern p⟩]⟩, ⟨1, "q1", false, true, []⟩]

theorem nodes_of_ofPattern (hg : Graph.ofPattern p = .ok g) :
    g.nodes = singleEdge p ∧ ∃ comment, g.history = [⟨0, comment, singleEdge p⟩] := by
  cases hg
  exact ⟨rfl, _, rfl⟩

theorem sound_singleEdge (hε : P .epsilon) (hp : p.Sound P) (history : List Snapshot) :
    (Graph.mk (singleEdge p) history).Sound P where
  two_le := Nat.le_refl 2
  placed i n hn := by
    match i, hn with
    | 0, hn => cases hn; exact ⟨rfl, rfl, rfl, rfl⟩
    | 1, hn => cases hn; exact ⟨rfl, rfl, rfl, rfl⟩
  target_lt := by
    simp [singleEdge, size]
  inscription := by
    simpa [singleEdge] using Inscription.sound_ofPattern hε hp

theorem pathLanguage_singleEdge (hε : P .epsilon) (hp : p.Sound P) :
    pathLanguage m (singleEdge p) = m.pattern p := by
  have hmoves : arrows m (singleEdge p) = Arrows.add (fun _ _ _ => False) 0 (m.pattern p) 1 := by
    funext i u j
    rw [eq_iff_iff, ← Inscription.language_ofPattern]
    constructor
    · rintro ⟨n, hn, e, he, rfl, hu⟩
      match i, hn with
      | 0, hn =>
        cases hn
        rw [List.mem_singleton.1 he] at hu ⊢
        exact .inr ⟨rfl, hu, rfl⟩
      | 1, hn =>
        cases hn
        cases he
    · rintro (hm | ⟨rfl, hu, rfl⟩)
      · exact hm.elim
      · exact ⟨_, rfl, _, List.mem_cons_self, rfl, hu⟩
  ext w
  rw [(sound_singleEdge hε hp []).mem_pathLanguage_iff, hmoves]
  exact Arrows.path_single_iff (by decide)

/-- The first graph of an expression is one edge that carries it, and has its words. -/
theorem traced_of_ofPattern (hε : P .epsilon) (hp : p.Sound P) (hg : Graph.ofPattern p = .ok g) :
    ∃ comment, Traced P ⟨0, comment, singleEdge p⟩ (fun m => m.pattern p) g := by
  obtain ⟨hn, comment, hh⟩ := nodes_of_ofPattern hg
  obtain ⟨nodes, history⟩ := g
  cases hn
  cases hh
  refine ⟨comment, sound_singleEdge hε hp _, ⟨[], rfl⟩, ⟨_, rfl, rfl⟩, fun s hs m => ?_⟩
  rw [List.mem_singleton.1 hs]
  exact pathLanguage_singleEdge hε hp

/-- The graph of an expression is its first graph taken apart. -/
theorem ofExpression_eq_decomposeAll {text : String} (hp : Token.ofText text = .ok p)
    (hg : Graph.ofPattern p = .ok g) : Graph.ofExpression text = decomposeAll g.weight g := by
  rw [Graph.ofExpression, hp]
  change (Graph.ofPattern p >>= fun g => decomposeAll g.weight g) = _
  rw [hg]
  rfl

/-- The graph of an expression is traced from its tokens to nodes whose edges carry a label. -/
theorem traced_of_ofExpression {text : String} (hg : Graph.ofExpression text = .ok g) :
    ∃ (p : Pattern) (comment : String), Token.ofText text = .ok p ∧ p.Sound Label.Written ∧
      Atomic g.nodes ∧
      Traced Label.Written ⟨0, comment, singleEdge p⟩ (fun m => m.pattern p) g := by
  obtain ⟨p, hp, hg⟩ := bind_eq_ok_iff.1 hg
  obtain ⟨g₁, hg₁, hg⟩ := bind_eq_ok_iff.1 hg
  have hp := mapError_eq_ok_iff.1 hp
  have hsound := sound_of_ofText hp
  obtain ⟨comment, h₁⟩ := traced_of_ofPattern Label.written_epsilon hsound hg₁
  obtain ⟨htraced, hatomic⟩ := h₁.decomposeAll Label.written_epsilon hg
  exact ⟨p, comment, hp, hsound, hatomic, htraced⟩

/-- The history of an expression starts with one edge that carries all of it, ends with the nodes
of the graph, whose edges all carry a label, and has the words of the expression throughout. -/
theorem history_of_ofExpression {text : String} (hg : Graph.ofExpression text = .ok g) :
    ∃ p : Pattern, Token.ofText text = .ok p ∧
      (∃ comment rest, g.history = ⟨0, comment, singleEdge p⟩ :: rest) ∧
      (∃ s, g.history.getLast? = some s ∧ s.nodes = g.nodes ∧ Atomic s.nodes) ∧
      ∀ s ∈ g.history, s.language = p.language := by
  obtain ⟨p, comment, hp, -, hatomic, h⟩ := traced_of_ofExpression hg
  obtain ⟨rest, hrest⟩ := h.starts
  obtain ⟨s, hs, hnodes⟩ := h.ends
  refine ⟨p, hp, ⟨comment, rest, hrest⟩, ⟨s, hs, hnodes, ?_⟩, fun t ht => ?_⟩
  · rwa [hnodes]
  · exact h.language_eq t ht .words

theorem history_of_nested_repetition : ∃ g, Graph.ofExpression "(a^b*)*" = .ok g ∧
    ∃ p : Pattern, Token.ofText "(a^b*)*" = .ok p ∧
      (∃ comment rest, g.history = ⟨0, comment, singleEdge p⟩ :: rest) ∧
      (∃ s, g.history.getLast? = some s ∧ s.nodes = g.nodes ∧ Atomic s.nodes) ∧
      ∀ s ∈ g.history, s.language = p.language := by
  have hsome : (Graph.ofExpression "(a^b*)*").toOption.isSome = true := by decide +kernel
  obtain ⟨g, hg⟩ := exists_ok_of_isSome hsome
  exact ⟨g, hg, history_of_ofExpression hg⟩

end Graph

end Acceptor
