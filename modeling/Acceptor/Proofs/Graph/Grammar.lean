/-
Which expressions have a graph: those that lexing reads and that keep to the grammar, and no other
(`ofExpression_grammar`). A fault of the grammar comes up late, when the edge that carries the
faulty run is taken apart; it is found before because taking an edge apart makes no run better and
none worse (`Stepped.grammatical_iff`).
-/
import Acceptor.Proofs.Graph.Growth
import Acceptor.Proofs.Pattern.Grammar

namespace Acceptor

variable {P : Label → Prop} {first : Snapshot} {L : Meaning → Language Char} {g g' : Graph}
  {p : Pattern} {d : Decomposition} {fuel k : Nat}

/-! ## Graphs of runs that keep to the grammar -/

/-- An inscription that is a label, or a run that keeps to the grammar. -/
def Inscription.Grammatical : Inscription → Prop
  | label _ => True
  | pattern p => p.Grammatical

theorem Inscription.grammatical_ofPattern : (ofPattern p).Grammatical ↔ p.Grammatical := by
  unfold ofPattern
  split
  · rename_i h
    rw [List.isEmpty_iff.1 h, Reading.empty.grammatical_iff]
    simp [Inscription.Grammatical, Decomposition.Filled, Decomposition.parts]
  · split
    · rename_i l h
      rw [atom?_eq_some_iff.1 h, Reading.atom.grammatical_iff]
      simp [Inscription.Grammatical, Decomposition.Filled, Decomposition.parts]
    · rfl

theorem SyntaxError.OfGrammar.not_internal {cause : SyntaxError} (h : cause.OfGrammar) :
    ¬ cause.Internal := by
  cases h <;> exact id

namespace Graph

/-- A graph in which every run keeps to the grammar. -/
def Grammatical (g : Graph) : Prop := ∀ i x, HasEdge g.nodes i x → x.inscription.Grammatical

theorem Atomic.grammatical (h : Atomic g.nodes) : g.Grammatical := by
  rintro i x ⟨n, hn, hx⟩
  obtain ⟨l, hl⟩ := h n (List.mem_of_getElem? hn) x hx
  rw [hl]
  trivial

theorem grammatical_of_ofPattern (hg : Graph.ofPattern p = .ok g) :
    g.Grammatical ↔ p.Grammatical := by
  obtain ⟨hn, -⟩ := nodes_of_ofPattern hg
  rw [Grammatical, hn, ← Inscription.grammatical_ofPattern]
  constructor
  · exact fun h => h 0 ⟨1, .ofPattern p⟩ ⟨_, rfl, List.mem_cons_self⟩
  · rintro h i x ⟨n, hn, hx⟩
    match i, hn with
    | 0, hn =>
      cases hn
      rw [List.mem_singleton.1 hx]
      exact h
    | 1, hn =>
      cases hn
      cases hx

/-- Taking an edge apart keeps to the grammar what does, and what does not breaks it as before. -/
theorem Stepped.grammatical_iff (h : g.Sound P) {e : PendingEdge} (he : g.firstPending? = some e)
    (hd : Decomposition.ofPattern e.pattern = .ok d) (hstep : Stepped g e d g') :
    g'.Grammatical ↔ g.Grammatical := by
  have hbalanced := (h.pattern_sound he).balanced
  -- the run of the edge keeps to the grammar where all that replaces it does
  have hrun : e.pattern.Grammatical ↔
      ∀ l ∈ d.links e.source e.target g.size, l.2.inscription.Grammatical := by
    rw [(reading_of_ofPattern hbalanced hd).grammatical_iff,
      and_iff_right (filled_of_ofPattern hd), d.forall_links_iff fun _ => trivial]
    simp only [Inscription.grammatical_ofPattern]
  obtain ⟨kept, hbefore, hafter⟩ := hstep.exists_kept h he
  constructor
  · intro hg i x hx
    rcases (hbefore i x).1 hx with hx | ⟨rfl, rfl⟩
    · exact hg i x ((hafter i x).2 (.inl hx))
    · exact hrun.2 fun l hl => hg l.1 l.2 ((hafter l.1 l.2).2 (.inr hl))
  · intro hg i x hx
    rcases (hafter i x).1 hx with hx | hx
    · exact hg i x ((hbefore i x).2 (.inl hx))
    · exact hrun.1 (hg e.source ⟨e.target, .pattern e.pattern⟩
        ((hbefore _ _).2 (.inr ⟨rfl, rfl⟩))) (i, x) hx

theorem Rewrites.grammatical_iff (h : g.Rewrites g') (hg : g.Sound P) :
    g'.Grammatical ↔ g.Grammatical := by
  obtain ⟨e, he, hok⟩ := h
  obtain ⟨d, g₁, comment, hd, hstep, rfl⟩ := exists_stepped hg he hok
  change g₁.Grammatical ↔ g.Grammatical
  exact hstep.grammatical_iff hg he hd

theorem RewritesIn.grammatical_iff (h : RewritesIn k g g') (hε : P .epsilon)
    (hg : Traced P first L g) : g'.Grammatical ↔ g.Grammatical := by
  induction h with
  | zero => exact Iff.rfl
  | succ hstep _ ih => exact (ih (hstep.traced hε hg).1).trans (hstep.grammatical_iff hg.sound)

/-! ## Answers -/

/-- An answer that tells whether something keeps to the grammar: where it does not, the answer is
a fault of the grammar. -/
structure Judges {α : Type} (answer : Except Error α) (keeps : Prop) : Prop where
  of_ok : ∀ a, answer = .ok a → keeps
  of_error : ∀ fault, answer = .error fault →
    ¬ keeps ∧ ∃ cause : SyntaxError, fault = .expression cause ∧ cause.OfGrammar

theorem judges_decomposeAll (hε : P .epsilon) (h : Traced P first L g) (hfuel : g.weight ≤ fuel) :
    Judges (decomposeAll fuel g) g.Grammatical := by
  obtain ⟨k, last, hrun, hend⟩ := h.exists_end hε hfuel
  have hsound := (hrun.traced hε h).1.sound
  rw [← hrun.grammatical_iff hε h]
  rcases hend with ⟨hnone, hok⟩ | ⟨e, fault, he, herror, hanswer⟩
  · rw [hok]
    exact ⟨fun _ _ => (atomic_of_firstPending? hnone).grammatical, nofun⟩
  · obtain ⟨cause, hd, rfl⟩ := of_decompose_eq_error hsound he herror
    obtain ⟨hcause, hbroken⟩ := fault_of_ofPattern (hsound.pattern_sound he).balanced hd
    rw [hanswer]
    refine ⟨nofun, fun fault hfault => ?_⟩
    cases hfault
    exact ⟨fun hg => hbroken (hg _ _ (hsound.hasEdge he)).formed, cause, rfl, hcause⟩

/-- Whether a run that lexing yields has a graph. -/
theorem judges_ofExpression {text : String} (hp : Token.ofText text = .ok p) :
    Judges (ofExpression text) p.Grammatical := by
  obtain ⟨g, hg⟩ : ∃ g, Graph.ofPattern p = .ok g := ⟨_, rfl⟩
  obtain ⟨comment, h⟩ := traced_of_ofPattern Label.written_epsilon (sound_of_ofText hp) hg
  rw [ofExpression_eq_decomposeAll hp hg, ← grammatical_of_ofPattern hg]
  exact judges_decomposeAll Label.written_epsilon h (Nat.le_refl _)

theorem ofExpression_eq_error {text : String} {cause : SyntaxError}
    (h : Token.ofText text = .error cause) : ofExpression text = .error (.expression cause) :=
  bind_eq_error_iff.2 (.inl (by rw [h, Except.mapError]))

/-- An expression without a graph is malformed, by its characters or by its grammar. -/
theorem fault_of_ofExpression {text : String} {fault : Error}
    (h : ofExpression text = .error fault) :
    ∃ cause : SyntaxError, fault = .expression cause ∧ ¬ cause.Internal := by
  match hp : Token.ofText text with
  | .error cause =>
    cases (ofExpression_eq_error hp).symm.trans h
    exact ⟨cause, rfl, Token.not_internal_of_ofText hp⟩
  | .ok p =>
    obtain ⟨-, cause, rfl, hcause⟩ := (judges_ofExpression hp).of_error fault h
    exact ⟨cause, rfl, hcause.not_internal⟩

/-- The expressions that have a graph are those that lexing reads and that keep to the grammar.
One that lexing reads and that breaks the grammar is a fault of the grammar, and every fault is one
of the expression: no run is left for which there is no rule, and no step fails otherwise. -/
theorem ofExpression_grammar (text : String) :
    ((∃ g, ofExpression text = .ok g) ↔
      ∃ p : Pattern, Token.ofText text = .ok p ∧ p.Grammatical) ∧
    (∀ p : Pattern, Token.ofText text = .ok p → ¬ p.Grammatical →
      ∃ cause : SyntaxError, ofExpression text = .error (.expression cause) ∧ cause.OfGrammar) ∧
    ∀ fault, ofExpression text = .error fault →
      ∃ cause : SyntaxError, fault = .expression cause ∧ ¬ cause.Internal := by
  refine ⟨⟨?_, ?_⟩, fun p hp hbroken => ?_, fun fault h => fault_of_ofExpression h⟩
  · rintro ⟨g, hg⟩
    obtain ⟨p, hp, -⟩ := bind_eq_ok_iff.1 hg
    have hp := mapError_eq_ok_iff.1 hp
    exact ⟨p, hp, (judges_ofExpression hp).of_ok g hg⟩
  · rintro ⟨p, hp, hgrammar⟩
    match hg : ofExpression text with
    | .ok g => exact ⟨g, rfl⟩
    | .error fault => exact absurd hgrammar ((judges_ofExpression hp).of_error fault hg).1
  · match hg : ofExpression text with
    | .ok g => exact absurd ((judges_ofExpression hp).of_ok g hg) hbroken
    | .error fault =>
      obtain ⟨-, cause, rfl, hcause⟩ := (judges_ofExpression hp).of_error fault hg
      exact ⟨cause, rfl, hcause⟩

end Graph

end Acceptor
