/-
How much of a graph is still to be taken apart. Main statements: a pattern weighs more than all
that replaces it (`Reading.cost_lt`), and a graph without weight has only edges with a label
(`Sound.firstPending?_eq_none`). So taking edges apart comes to an end within the fuel it is given.
-/
import Mathlib.Algebra.Ring.Nat
import Acceptor.Proofs.Graph.Meaning

namespace Acceptor

variable {g g' : Graph} {source target index : Nat} {n : Node} {s : Inscription} {p : Pattern}

/-! ## Weight -/

/-- What the edges of a node add to the weight of a graph. -/
def Node.weight (n : Node) : Nat := (n.edges.map (·.inscription.weight)).sum

@[simp] theorem Inscription.weight_pattern (p : Pattern) :
    (Inscription.pattern p).weight = 3 ^ p.length :=
  rfl

theorem Inscription.weight_ofPattern_le : (Inscription.ofPattern p).weight ≤ 3 ^ p.length := by
  unfold Inscription.ofPattern
  split
  · exact Nat.zero_le _
  · split
    · exact Nat.zero_le _
    · exact Nat.le_refl _

theorem sum_map_modify {α : Type} {w : α → Nat} {f : α → α} {xs : List α} {i : Nat} {x : α}
    (h : xs[i]? = some x) : ((xs.modify i f).map w).sum + w x = (xs.map w).sum + w (f x) := by
  induction xs generalizing i with
  | nil => cases h
  | cons y ys ih =>
    cases i with
    | zero =>
      cases h
      simp only [List.modify_zero_cons, List.map_cons, List.sum_cons]
      omega
    | succ i =>
      have := ih h
      simp only [List.modify_succ_cons, List.map_cons, List.sum_cons]
      omega

theorem sum_map_eraseIdx {α : Type} {w : α → Nat} {xs : List α} {i : Nat} {x : α}
    (h : xs[i]? = some x) : (xs.map w).sum = ((xs.eraseIdx i).map w).sum + w x := by
  induction xs generalizing i with
  | nil => cases h
  | cons y ys ih =>
    cases i with
    | zero =>
      cases h
      simp only [List.eraseIdx_cons_zero, List.map_cons, List.sum_cons]
      omega
    | succ i =>
      have := ih h
      simp only [List.eraseIdx_cons_succ, List.map_cons, List.sum_cons]
      omega

namespace Graph

theorem weight_eq (g : Graph) : g.weight = (g.nodes.map Node.weight).sum := by
  simp only [weight, edges]
  induction g.nodes with
  | nil => rfl
  | cons n rest ih =>
    rw [List.flatMap_cons, List.foldr_append, ih, List.map_cons, List.sum_cons, Node.weight]
    induction n.edges with
    | nil => simp
    | cons e es ih' =>
      rw [List.map_cons, List.foldr_cons, ih', List.map_cons, List.sum_cons, Nat.add_assoc]

theorem weight_addNode : g.addNode.weight = g.weight := by
  rw [weight_eq, weight_eq, addNode, addNamed_nodes, List.map_append, List.sum_append]
  rfl

theorem weight_addEdge (hg : g.addEdge source target s = .ok g') :
    g'.weight = g.weight + s.weight := by
  obtain ⟨hs, rfl⟩ := addEdge_eq_ok_iff.1 hg
  have hn : g.nodes[source]? = some g.nodes[source] := List.getElem?_eq_getElem hs
  have := sum_map_modify (w := Node.weight)
    (f := fun n => { n with edges := n.edges ++ [⟨target, s⟩] }) hn
  rw [weight_eq, weight_eq]
  simp only [Node.weight, List.map_append, List.sum_append, List.map_cons, List.map_nil,
    List.sum_singleton] at this ⊢
  omega

theorem weight_removeEdge (hg : g.removeEdge source index = .ok g')
    (hn : g.nodes[source]? = some n) (he : n.edges[index]? = some ⟨target, s⟩) :
    g.weight = g'.weight + s.weight := by
  obtain ⟨-, -, -, -, hg⟩ := removeEdge_eq_ok_iff.1 hg
  obtain ⟨-, rfl⟩ := modifyNode_eq_ok_iff.1 hg
  have hsum := sum_map_modify (w := Node.weight)
    (f := fun n => { n with edges := n.edges.eraseIdx index }) hn
  have herase := sum_map_eraseIdx (w := fun e : Edge => e.inscription.weight) he
  change _ = _ + s.weight at herase
  rw [weight_eq, weight_eq]
  simp only [Node.weight] at hsum ⊢
  omega

end Graph

/-! ## The first edge to take apart -/

theorem PendingEdge.of_first? {i : Nat} {es : List Edge} {e : PendingEdge}
    (h : first? source i es = some e) : e.source = source ∧
      ∃ k, e.index = i + k ∧ es[k]? = some ⟨e.target, .pattern e.pattern⟩ := by
  fun_induction first? source i es with
  | case1 => cases h
  | case2 =>
    cases h
    exact ⟨rfl, 0, rfl, rfl⟩
  | case3 index target l rest ih =>
    obtain ⟨hs, k, hk, he⟩ := ih h
    exact ⟨hs, k + 1, by omega, he⟩

theorem PendingEdge.first?_eq_none {i : Nat} {es : List Edge} (h : first? source i es = none) :
    ∀ e ∈ es, ∃ l, e.inscription = .label l := by
  fun_induction first? source i es with
  | case1 => simp
  | case2 => cases h
  | case3 index target l rest ih =>
    intro e he
    rcases List.mem_cons.1 he with rfl | he
    · exact ⟨l, rfl⟩
    · exact ih h e he

namespace Graph

/-- Every edge carries a label. -/
def Atomic (nodes : List Node) : Prop :=
  ∀ n ∈ nodes, ∀ e ∈ n.edges, ∃ l, e.inscription = .label l

theorem Sound.of_firstPending? {P : Label → Prop} (h : g.Sound P) {e : PendingEdge}
    (he : g.firstPending? = some e) : ∃ n, g.nodes[e.source]? = some n ∧
      n.edges[e.index]? = some ⟨e.target, .pattern e.pattern⟩ := by
  obtain ⟨n, hn, hfirst⟩ := List.exists_of_findSome?_eq_some he
  obtain ⟨i, hi⟩ := List.mem_iff_getElem?.1 hn
  obtain ⟨hs, k, hk, hedge⟩ := PendingEdge.of_first? hfirst
  rw [Nat.zero_add] at hk
  refine ⟨n, ?_, ?_⟩
  · rw [hs, (h.placed i n hi).id_eq, hi]
  · rw [hk, hedge]

theorem atomic_of_firstPending? (h : g.firstPending? = none) : Atomic g.nodes :=
  fun n hn => PendingEdge.first?_eq_none (List.findSome?_eq_none_iff.1 h n hn)

/-- A graph without weight is taken apart. -/
theorem Sound.firstPending?_eq_none {P : Label → Prop} (h : g.Sound P) (hw : g.weight = 0) :
    g.firstPending? = none := by
  rw [Option.eq_none_iff_forall_ne_some]
  intro e he
  obtain ⟨n, hn, hedge⟩ := h.of_firstPending? he
  have hsum := sum_map_eraseIdx (w := fun e : Edge => e.inscription.weight) hedge
  have hnode := sum_map_eraseIdx (w := Node.weight) hn
  have hpos : 0 < 3 ^ e.pattern.length := Nat.pow_pos (by decide)
  rw [weight_eq] at hw
  simp only [Node.weight, Inscription.weight_pattern] at hsum hnode hw
  omega

end Graph

/-! ## What replaces a pattern -/

/-- What the edges that replace a pattern add to the weight of a graph at most. -/
def Decomposition.cost : Decomposition → Nat
  | group inner => 3 ^ inner.length
  | union parts => (parts.map (3 ^ ·.length)).sum
  | repetition .star operand => 3 ^ operand.length
  | repetition .plus operand => 3 ^ operand.length + 3 ^ operand.length
  | chain pieces => (pieces.map (3 ^ ·.length)).sum
  | atom _ => 0

theorem add_pow_lt {a b c : Nat} (ha : a < c) (hb : b < c) : 3 ^ a + 3 ^ b < 3 ^ c := by
  obtain ⟨d, rfl⟩ := Nat.exists_eq_add_of_lt hb
  have hpow : 3 ^ (b + d + 1) = 3 * 3 ^ (b + d) := Nat.pow_succ'
  have ha' : 3 ^ a ≤ 3 ^ (b + d) := Nat.pow_le_pow_right (by decide) (by omega)
  have hb' : 3 ^ b ≤ 3 ^ (b + d) := Nat.pow_le_pow_right (by decide) (by omega)
  have hpos : 0 < 3 ^ (b + d) := Nat.pow_pos (by decide)
  omega

-- the `+` between two parts is what a union weighs more than its parts do together
theorem cost_joined_lt {first second : Pattern} {others : List Pattern}
    (h : ((second :: others).map (3 ^ ·.length)).sum ≤ 3 ^ (Pattern.joined second others).length) :
    ((first :: second :: others).map (3 ^ ·.length)).sum <
      3 ^ (Pattern.joined first (second :: others)).length := by
  have hlen : (Pattern.joined first (second :: others)).length =
      first.length + (Pattern.joined second others).length + 1 := by
    simp only [Pattern.joined, List.flatMap_cons, List.length_append, List.length_cons]
    omega
  have hlt := add_pow_lt (a := first.length) (b := (Pattern.joined second others).length)
    (c := (Pattern.joined first (second :: others)).length) (by omega) (by omega)
  rw [List.map_cons, List.sum_cons]
  omega

theorem cost_joined_le {first : Pattern} {others : List Pattern} :
    ((first :: others).map (3 ^ ·.length)).sum ≤ 3 ^ (Pattern.joined first others).length := by
  induction others generalizing first with
  | nil => simp [Pattern.joined]
  | cons second others ih => exact Nat.le_of_lt (cost_joined_lt ih)

theorem cost_flatten_lt {p q : Pattern} {ps : List Pattern} (hp : p ≠ []) (hq : q ≠ [])
    (h : ((q :: ps).map (3 ^ ·.length)).sum ≤ 3 ^ (q :: ps).flatten.length) :
    ((p :: q :: ps).map (3 ^ ·.length)).sum < 3 ^ (p :: q :: ps).flatten.length := by
  have hlen : (p :: q :: ps).flatten.length = p.length + (q :: ps).flatten.length := by
    rw [List.flatten_cons, List.length_append]
  have hrest : 0 < (q :: ps).flatten.length := by
    rw [List.flatten_cons, List.length_append]
    exact Nat.add_pos_left (List.length_pos_iff.2 hq) _
  have hfirst : 0 < p.length := List.length_pos_iff.2 hp
  have hlt := add_pow_lt (a := p.length) (b := (q :: ps).flatten.length)
    (c := (p :: q :: ps).flatten.length) (by omega) (by omega)
  rw [List.map_cons, List.sum_cons]
  omega

theorem cost_flatten_le {p : Pattern} {ps : List Pattern} (h : ∀ q ∈ p :: ps, q ≠ []) :
    ((p :: ps).map (3 ^ ·.length)).sum ≤ 3 ^ (p :: ps).flatten.length := by
  induction ps generalizing p with
  | nil => simp
  | cons q ps ih =>
    obtain ⟨hp, hrest⟩ := List.forall_mem_cons.1 h
    exact Nat.le_of_lt (cost_flatten_lt hp (hrest q List.mem_cons_self) (ih hrest))

/-- What replaces a pattern weighs less than it. -/
theorem Reading.cost_lt {d : Decomposition} (h : Reading p d) : d.cost < 3 ^ p.length := by
  cases h with
  | empty => decide
  | @group inner =>
    refine Nat.pow_lt_pow_right (by decide) ?_
    simp only [Pattern.grouped, List.length_append, List.length_cons]
    omega
  | @union first others ho =>
    cases others with
    | nil => exact absurd rfl ho
    | cons second others => exact cost_joined_lt cost_joined_le
  | @repetition operand r =>
    have hlen : operand.length < (operand ++ [Token.repetition r]).length := by
      rw [List.length_append]
      exact Nat.lt_succ_self _
    cases r with
    | star => exact Nat.pow_lt_pow_right (by decide) hlen
    | plus => exact add_pow_lt hlen hlen
  | @chain pieces hlen hpieces =>
    obtain ⟨p, q, rest, rfl⟩ := Pattern.exists_of_two_le_length hlen
    have hne := fun x hx => (hpieces x hx).ne_nil
    obtain ⟨hp, hrest⟩ := List.forall_mem_cons.1 hne
    exact cost_flatten_lt hp (hrest q List.mem_cons_self) (cost_flatten_le hrest)
  | atom => exact Nat.pow_pos (by decide)

end Acceptor
