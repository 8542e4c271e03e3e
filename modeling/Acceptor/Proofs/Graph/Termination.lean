/-
How long an expression is taken apart. Main statement: for an expression of `n` tokens that is at
most `3 ^ n` rewrites, each of which makes the graph lighter, and the answer is the last graph, or
the fault of an edge for which there is no rule (`rewriting_ends`).
-/
import Acceptor.Proofs.Graph.Grammar

namespace Acceptor.Graph

variable {g : Graph} {p : Pattern}

theorem weight_of_ofPattern (hg : Graph.ofPattern p = .ok g) : g.weight ≤ 3 ^ p.length := by
  rw [weight_eq, (nodes_of_ofPattern hg).1]
  simpa [singleEdge, Node.weight] using Inscription.weight_ofPattern_le

/-- The graph of an expression starts as one edge with all its tokens, which weighs at most `3 ^ n`
for `n` tokens. Every rewrite that follows makes it lighter, so there are at most as many of them,
whichever rules they use. After some number of rewrites none is left, and the graph that is then
reached is the answer, or the fault of its first edge that is still to be taken apart, which is a
fault of the expression. -/
theorem rewriting_ends {text : String} {p : Pattern} (hp : Token.ofText text = .ok p) :
    ∃ first, Graph.ofPattern p = .ok first ∧ first.weight ≤ 3 ^ p.length ∧
      (∀ k g, RewritesIn k first g → k + g.weight ≤ 3 ^ p.length ∧
        ∀ g', g.Rewrites g' → g'.weight < g.weight) ∧
      (∃ k last, k ≤ 3 ^ p.length ∧ RewritesIn k first last ∧
        last.EndsWith (ofExpression text)) ∧
      ∀ fault, ofExpression text = .error fault →
        ∃ cause : SyntaxError, fault = .expression cause := by
  obtain ⟨first, hfirst⟩ : ∃ first, Graph.ofPattern p = .ok first := ⟨_, rfl⟩
  obtain ⟨comment, htraced⟩ := traced_of_ofPattern Label.written_epsilon (sound_of_ofText hp) hfirst
  have hweight := weight_of_ofPattern hfirst
  refine ⟨first, hfirst, hweight, fun k g hrun => ?_, ?_, fun fault hfault => ?_⟩
  · obtain ⟨hg, hle⟩ := hrun.traced Label.written_epsilon htraced
    exact ⟨by omega, fun g' hstep => (hstep.traced Label.written_epsilon hg).2⟩
  · obtain ⟨k, last, hrun, hend⟩ := htraced.exists_end Label.written_epsilon (Nat.le_refl _)
    have hle := (hrun.traced Label.written_epsilon htraced).2
    exact ⟨k, last, by omega, hrun, ofExpression_eq_decomposeAll hp hfirst ▸ hend⟩
  · obtain ⟨cause, hcause, -⟩ := fault_of_ofExpression hfault
    exact ⟨cause, hcause⟩

theorem rewriting_ends_repeated : ∃ p, Token.ofText "((a+b)^c*+.)^" = .ok p ∧
    ∃ first, Graph.ofPattern p = .ok first ∧ first.weight ≤ 3 ^ p.length ∧
      (∀ k g, RewritesIn k first g → k + g.weight ≤ 3 ^ p.length ∧
        ∀ g', g.Rewrites g' → g'.weight < g.weight) ∧
      (∃ k last, k ≤ 3 ^ p.length ∧ RewritesIn k first last ∧
        last.EndsWith (ofExpression "((a+b)^c*+.)^")) ∧
      ∀ fault, ofExpression "((a+b)^c*+.)^" = .error fault →
        ∃ cause : SyntaxError, fault = .expression cause := by
  have hsome : (Token.ofText "((a+b)^c*+.)^").toOption.isSome = true := by decide +kernel
  obtain ⟨p, hp⟩ := exists_ok_of_isSome hsome
  exact ⟨p, hp, rewriting_ends hp⟩

end Acceptor.Graph
