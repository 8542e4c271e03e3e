/-
Compiled expressions. Main statements: a run of a compiled expression never fails, and accepts
exactly the words of the expression (`run_of_ofExpression`), and an expression that has a graph is
compiled, as no later stage fails (`compiles_exactly`).
-/
import Acceptor.Proofs.Graph.Grammar
import Acceptor.Proofs.Graph.Tabulation
import Acceptor.Recognizer

namespace Acceptor

open Table

namespace Graph

variable {g : Graph} {i j : Nat} {u : List Char}

/-- Where every edge reads something, a path that is there at all reads a word. -/
theorem Tabular.exists_path (h : g.Tabular) (hp : (arrows .mute g.nodes).Path i u j) :
    ∃ w, (arrows .words g.nodes).Path i w j := by
  induction hp with
  | nil => exact ⟨[], .nil⟩
  | cons hm _ ih =>
    obtain ⟨n, hn, e, he, hj, -⟩ := hm
    obtain ⟨l, hl, hw⟩ := h.label hn he
    obtain ⟨v, hv⟩ := hw.nonempty
    obtain ⟨w, hw⟩ := ih
    exact ⟨v ++ w, .cons ⟨n, hn, e, he, hj, by rw [hl]; exact hv⟩ hw⟩

/-- The graph of an expression has its words, of which there is one at least. -/
theorem tabular_of_ofExpression {text : String} (hg : ofExpression text = .ok g) :
    ∃ p : Pattern, Token.ofText text = .ok p ∧ g.Tabular ∧
      pathLanguage .words g.nodes = p.language ∧ ∃ w, w ∈ p.language := by
  obtain ⟨p, comment, hp, -, hatomic, htraced⟩ := traced_of_ofExpression hg
  have h : g.Tabular := ⟨htraced.sound, hatomic⟩
  have hlanguage : pathLanguage .words g.nodes = p.language := htraced.pathLanguage_eq
  refine ⟨p, hp, h, hlanguage, ?_⟩
  have hmute : [] ∈ pathLanguage .mute g.nodes := by
    rw [htraced.pathLanguage_eq]
    exact Language.nil_mem_one
  obtain ⟨w, hw⟩ := h.exists_path (h.sound.mem_pathLanguage_iff.1 hmute)
  exact ⟨w, hlanguage ▸ h.sound.mem_pathLanguage_iff.2 hw⟩

end Graph

namespace Recognizer

variable {r : Recognizer}

theorem of_ofExpression {expression : String} {options : WalkOptions}
    (hr : ofExpression expression options = .ok r) : ∃ refined,
      Graph.ofExpression expression = .ok r.nfa ∧ Table.ofGraph r.nfa = .ok r.nfaTable ∧
      r.nfaTable.refine = .ok refined ∧ refined.removeEpsilon = .ok r.epsilonFree ∧
      r.epsilonFree.determinize = .ok r.dfa ∧ Graph.ofTable r.dfa.table = .ok r.graph ∧
      r.options = options := by
  obtain ⟨nfa, hnfa, hr⟩ := bind_eq_ok_iff.1 hr
  obtain ⟨nfaTable, htable, hr⟩ := bind_eq_ok_iff.1 hr
  obtain ⟨refined, hrefined, hr⟩ := bind_eq_ok_iff.1 hr
  obtain ⟨epsilonFree, hfree, hr⟩ := bind_eq_ok_iff.1 hr
  obtain ⟨dfa, hdfa, hr⟩ := bind_eq_ok_iff.1 hr
  obtain ⟨graph, hgraph, hr⟩ := bind_eq_ok_iff.1 hr
  cases hr
  exact ⟨refined, hnfa, htable, hrefined, hfree, hdfa, hgraph, rfl⟩

/-- A run of a compiled expression does not fail, and accepts exactly the words of the tokens of
the expression. -/
theorem run_of_ofExpression {expression : String} (hr : ofExpression expression {} = .ok r) :
    ∃ p : Pattern, Token.ofText expression = .ok p ∧ ∀ input : String, ∃ run,
      r.run input = .ok run ∧ (run.accepted = true ↔ input.toList ∈ p.language) ∧
      r.isMatch input = run.accepted := by
  obtain ⟨refined, hnfa, htable, hrefined, hfree, hdfa, hgraph, hoptions⟩ := of_ofExpression hr
  obtain ⟨p, hp, htabular, hpath, w, hw⟩ := Graph.tabular_of_ofExpression hnfa
  obtain ⟨t, ht, hrunnable, hmarker, hlanguage⟩ := htabular.exists_ofGraph
  cases htable.symm.trans ht
  obtain ⟨r', e, d, g, hr', he, hd, hg, hcompiled⟩ := hrunnable.exists_compiled hmarker
  cases hrefined.symm.trans hr'
  cases hfree.symm.trans he
  cases hdfa.symm.trans hd
  cases hgraph.symm.trans hg
  rw [hpath] at hlanguage
  -- there is a word at all, so a final state too
  have hfinals : r.dfa.table.finals.isEmpty = false := by
    cases hempty : r.dfa.table.finals.isEmpty with
    | true => exact absurd (hlanguage ▸ hw) (hcompiled.not_mem_language hempty w)
    | false => rfl
  refine ⟨p, hp, fun input => ?_⟩
  obtain ⟨run, hrun, haccepted⟩ := hcompiled.walk hfinals input
  have hrun : r.run input = .ok run := by rw [Recognizer.run, hoptions, hrun]
  refine ⟨run, hrun, by rw [haccepted, hlanguage], ?_⟩
  rw [isMatch, hrun]

theorem run_of_overlapping_atoms : ∃ r, ofExpression "(.+[a-c])*" {} = .ok r ∧
    ∃ p : Pattern, Token.ofText "(.+[a-c])*" = .ok p ∧ ∀ input : String, ∃ run,
      r.run input = .ok run ∧ (run.accepted = true ↔ input.toList ∈ p.language) ∧
      r.isMatch input = run.accepted := by
  have hsome : (ofExpression "(.+[a-c])*" {}).toOption.isSome = true := by decide +kernel
  obtain ⟨r, hr⟩ := exists_ok_of_isSome hsome
  exact ⟨r, hr, run_of_ofExpression hr⟩

/-- All stages that follow the graph of an expression succeed. -/
theorem exists_ofExpression {expression : String} {nfa : Graph}
    (hnfa : Graph.ofExpression expression = .ok nfa) (options : WalkOptions) :
    ∃ nfaTable refined epsilonFree dfa graph, Table.ofGraph nfa = .ok nfaTable ∧
      nfaTable.refine = .ok refined ∧ refined.removeEpsilon = .ok epsilonFree ∧
      epsilonFree.determinize = .ok dfa ∧ Graph.ofTable dfa.table = .ok graph ∧
      ofExpression expression options =
        .ok ⟨expression, nfa, nfaTable, epsilonFree, dfa, graph, options⟩ := by
  obtain ⟨-, -, htabular, -, -⟩ := Graph.tabular_of_ofExpression hnfa
  obtain ⟨t, ht, hrunnable, hmarker, -⟩ := htabular.exists_ofGraph
  obtain ⟨r, e, d, g, found, hr, he, hd, hg, -⟩ := hrunnable.exists_stages hmarker
  refine ⟨t, r, e, d, g, ht, hr, he, hd, hg, ?_⟩
  exact bind_eq_ok_iff.2 ⟨nfa, hnfa, bind_eq_ok_iff.2 ⟨t, ht, bind_eq_ok_iff.2 ⟨r, hr,
    bind_eq_ok_iff.2 ⟨e, he, bind_eq_ok_iff.2 ⟨d, hd, bind_eq_ok_iff.2 ⟨g, hg, rfl⟩⟩⟩⟩⟩⟩

/-- An expression is compiled exactly where it has a graph. Where it has none the fault is that of
the graph, which is one of the expression, and where it has one each of the later stages
succeeds. -/
theorem compiles_exactly (expression : String) (options : WalkOptions) :
    ((∃ r, ofExpression expression options = .ok r) ↔
      ∃ nfa, Graph.ofExpression expression = .ok nfa) ∧
    (∀ fault, ofExpression expression options = .error fault →
      Graph.ofExpression expression = .error fault ∧
      ∃ cause : SyntaxError, fault = .expression cause) ∧
    ∀ nfa, Graph.ofExpression expression = .ok nfa →
      ∃ nfaTable refined epsilonFree dfa graph, Table.ofGraph nfa = .ok nfaTable ∧
        nfaTable.refine = .ok refined ∧ refined.removeEpsilon = .ok epsilonFree ∧
        epsilonFree.determinize = .ok dfa ∧ Graph.ofTable dfa.table = .ok graph ∧
        ofExpression expression options =
          .ok ⟨expression, nfa, nfaTable, epsilonFree, dfa, graph, options⟩ := by
  refine ⟨⟨?_, ?_⟩, fun fault hfault => ?_, fun nfa hnfa => exists_ofExpression hnfa options⟩
  · rintro ⟨r, hr⟩
    obtain ⟨nfa, hnfa, -⟩ := bind_eq_ok_iff.1 hr
    exact ⟨nfa, hnfa⟩
  · rintro ⟨nfa, hnfa⟩
    obtain ⟨_, _, _, _, _, -, -, -, -, -, hr⟩ := exists_ofExpression hnfa options
    exact ⟨_, hr⟩
  · match hnfa : Graph.ofExpression expression with
    | .ok nfa =>
      obtain ⟨_, _, _, _, _, -, -, -, -, -, hr⟩ := exists_ofExpression hnfa options
      cases hr.symm.trans hfault
    | .error fault' =>
      have hsame : ofExpression expression options = .error fault' :=
        bind_eq_error_iff.2 (.inl hnfa)
      cases hsame.symm.trans hfault
      obtain ⟨cause, hcause, -⟩ := Graph.fault_of_ofExpression hnfa
      exact ⟨rfl, cause, hcause⟩

end Recognizer

end Acceptor
