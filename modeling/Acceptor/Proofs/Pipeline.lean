/-
From any table to a deterministic one and its graph. Main statements: all stages succeed one after
the other (`Runnable.exists_stages`), and whichever of the three is run, it gives the same answer
to every input.
-/
import Acceptor.Proofs.Graph.Walk
import Acceptor.Proofs.Table.Liveness

namespace Acceptor

namespace Table

variable {t r e : Table} {d : Dfa} {g : Graph} {found : List IndexSet}

/-- A table that can be run: valid, with states, and its columns are labels. -/
structure Runnable (t : Table) : Prop where
  valid : t.Valid
  states_ne : t.states ≠ []
  labels : ∀ symbol ∈ t.symbols, ∃ l, Label.ofText symbol = .ok l

theorem Runnable.decides_accepts (h : t.Runnable) (input : String) :
    Decides (t.accepts input) (input.toList ∈ t.language) := by
  obtain ⟨labels, hl⟩ := exists_symbolLabels h.labels
  exact h.valid.decides_accepts h.states_ne hl input

theorem Disjoint.of_symbols_eq (h : t.Disjoint) (hs : r.symbols = t.symbols) : r.Disjoint := by
  intro a ha b hb
  rw [hs] at ha hb
  exact h a ha b hb

/-- In disjoint columns at most one state of a deterministic table follows by reading a
character. -/
theorem Determinized.functional (h : Determinized t r found) (hd : r.Disjoint) : r.Functional := by
  rintro x c y z ⟨a, ha, l, hl, hlc, hxy⟩ ⟨b, hb, m, hm, hmc, hxz⟩
  obtain rfl := hd a ha b hb l m hl hm c hlc hmc
  rw [h.symbols_eq] at ha
  obtain ⟨p, q, hp, -, -⟩ := id hxy
  obtain ⟨k, hk, rfl⟩ := (h.mem_states_iff p).1 (List.mem_of_getElem? hp)
  have hfound : found[k]? = some found[k] := List.getElem?_eq_getElem hk
  obtain ⟨next, hnext, -⟩ := h.targets k _ hfound a ha
  obtain ⟨-, i, hy, hi⟩ := (h.follows_iff ⟨k, hp, hfound⟩ ha hnext).1 hxy
  obtain ⟨-, j, hz, hj⟩ := (h.follows_iff ⟨k, hp, hfound⟩ ha hnext).1 hxz
  obtain rfl := h.sets.index_unique hi hj
  exact getElem?_states_inj h.valid.nodup hy hz

/-! ## All stages -/

/-- The tables that a table goes through until it is deterministic, with the graph of the last. -/
structure Stages (t r e : Table) (d : Dfa) (g : Graph) (found : List IndexSet) : Prop where
  refined : Refined t r
  eliminated : Eliminated r e
  determinized : Determinized e d.table found
  reachable : ∀ s ∈ found, e.Reachable s
  labels : ∀ symbol ∈ d.table.symbols, ∃ l, Label.ofText symbol = .ok l
  graph : GraphOf d.table g

/-- All stages succeed, one after the other. -/
theorem Runnable.exists_stages (h : t.Runnable) (hm : t.PlainMarker) :
    ∃ r e d g found, t.refine = .ok r ∧ r.removeEpsilon = .ok e ∧ e.determinize = .ok d ∧
      Graph.ofTable d.table = .ok g ∧ Stages t r e d g found := by
  obtain ⟨labels, hl⟩ := exists_symbolLabels h.labels
  obtain ⟨r, hr, hrefined⟩ := h.valid.exists_refine hl hm
  obtain ⟨e, he, heliminated⟩ := hrefined.valid.exists_removeEpsilon
  have hrne : r.states ≠ [] := hrefined.states_eq ▸ h.states_ne
  have hene : e.states ≠ [] := fun h => hrne (heliminated.states_eq_nil_iff.1 h)
  obtain ⟨d, found, hd, hdet, hreach⟩ :=
    heliminated.valid.exists_determinize_reachable hene heliminated.targets_marker
  have hsymbols : d.table.symbols = r.symbols := hdet.symbols_eq.trans heliminated.symbols_eq
  have hlabels : ∀ symbol ∈ d.table.symbols, ∃ l, Label.ofText symbol = .ok l := by
    intro symbol hs
    obtain ⟨ls, hls⟩ := hrefined.labels
    exact label_of_symbolLabels hls (hsymbols ▸ hs)
  obtain ⟨g, hg, hgraph⟩ := hdet.valid.exists_ofTable hlabels
  exact ⟨r, e, d, g, found, hr, he, hd, hg,
    ⟨hrefined, heliminated, hdet, hreach, hlabels, hgraph⟩⟩

theorem Stages.functional (h : Stages t r e d g found) : d.table.Functional :=
  h.determinized.functional (h.refined.disjoint.of_symbols_eq
    (h.determinized.symbols_eq.trans h.eliminated.symbols_eq))

theorem Stages.live (h : Stages t r e d g found) (hl : t.Live) : d.table.Live :=
  h.determinized.live h.eliminated.targets_marker h.reachable
    (h.eliminated.live (h.refined.live hl))

theorem Stages.language_eq (h : Stages t r e d g found) (hne : t.states ≠ []) :
    d.table.language = t.language := by
  rw [h.determinized.language_eq h.eliminated.targets_marker,
    h.eliminated.language_eq h.refined.valid (h.refined.states_eq ▸ hne), h.refined.language_eq]

/-- A deterministic table and its graph, which give the answers of a table. -/
structure Compiled (t : Table) (d : Dfa) (g : Graph) : Prop where
  runnable : d.table.Runnable
  language_eq : d.table.language = t.language
  walk : d.table.finals.isEmpty = false → ∀ input, ∃ run, g.walk input {} = .ok run ∧
    (run.accepted = true ↔ input.toList ∈ t.language)

/-- What the stages of a table end in gives its answers. -/
theorem Runnable.exists_compiled (h : t.Runnable) (hm : t.PlainMarker) :
    ∃ r e d g, t.refine = .ok r ∧ r.removeEpsilon = .ok e ∧ e.determinize = .ok d ∧
      Graph.ofTable d.table = .ok g ∧ Compiled t d g := by
  obtain ⟨r, e, d, g, found, hr, he, hd, hg, hs⟩ := h.exists_stages hm
  have hlanguage := hs.language_eq h.states_ne
  obtain ⟨x, hstarts, -, -⟩ := hs.determinized.exists_start
  refine ⟨r, e, d, g, hr, he, hd, hg,
    ⟨hs.determinized.valid, hs.determinized.states_ne, hs.labels⟩, hlanguage, fun hf input => ?_⟩
  rw [← hlanguage]
  exact hs.graph.exists_walk hs.determinized.valid hs.functional hs.determinized.targets_marker
    hstarts hf input

/-- A deterministic table without final states has no words. -/
theorem Compiled.not_mem_language (h : Compiled t d g)
    (hf : d.table.finals.isEmpty = true) (w : List Char) : w ∉ t.language := by
  rw [← h.language_eq]
  rintro ⟨i, j, -, hj, -⟩
  exact OrderedSet.isEmpty_eq_true_iff.1 hf j hj

/-- Any table that makes sense can be made deterministic, where it has states, its columns read as
labels and its marker does not read as a range or as a list of intervals. To every input the
deterministic table gives the same answer, and so does a walk through its graph, unless it has no
final state; then no input is accepted. -/
theorem toDfa_agrees {t : Table} (hv : t.validate = .ok ()) (hne : t.states ≠ [])
    (hl : ∀ symbol ∈ t.symbols, ∃ l, Label.ofText symbol = .ok l) (hm : t.PlainMarker) :
    ∃ d g, t.toDfa = .ok d ∧ Graph.ofTable d.table = .ok g ∧ ∀ input : String, ∃ answer,
      t.accepts input = .ok answer ∧ d.table.accepts input = .ok answer ∧
      (d.table.finals.isEmpty = false → g.accepts input = .ok answer) ∧
      (d.table.finals.isEmpty = true → answer = false) := by
  have h : t.Runnable := ⟨validate_eq_ok_iff.1 hv, hne, hl⟩
  obtain ⟨r, e, d, g, hr, he, hd, hg, hcompiled⟩ := h.exists_compiled hm
  refine ⟨d, g, ?_, hg, fun input => ?_⟩
  · rw [toDfa, hr]
    change (r.removeEpsilon >>= _) = _
    rw [he]
    exact hd
  obtain ⟨answer, hanswer, hiff⟩ := h.decides_accepts input
  refine ⟨answer, hanswer, ?_, fun hf => ?_, fun hf => ?_⟩
  · have hdfa := hcompiled.runnable.decides_accepts input
    rw [hcompiled.language_eq] at hdfa
    exact hdfa.unique ⟨answer, rfl, hiff⟩
  · obtain ⟨run, hrun, haccepted⟩ := hcompiled.walk hf input
    refine Decides.unique ⟨run.accepted, ?_, haccepted⟩ ⟨answer, rfl, hiff⟩
    rw [Graph.accepts, hrun]
    rfl
  · rw [← Bool.not_eq_true, hiff]
    exact hcompiled.not_mem_language hf _

/-- Two columns that read some of the same characters, and a move without reading. -/
def overlapping : Table :=
  ((ofStates ["p", "q", "r"] [".", "[a-c]", usualMarker] usualMarker).store
    [⟨"p", ".", ["p"]⟩, ⟨"p", "[a-c]", ["q"]⟩, ⟨"q", usualMarker, ["r"]⟩]).markFinal 2

theorem toDfa_agrees_overlapping : ∃ d g, overlapping.toDfa = .ok d ∧
    Graph.ofTable d.table = .ok g ∧ ∀ input : String, ∃ answer,
      overlapping.accepts input = .ok answer ∧ d.table.accepts input = .ok answer ∧
      (d.table.finals.isEmpty = false → g.accepts input = .ok answer) ∧
      (d.table.finals.isEmpty = true → answer = false) := by
  have hvalid : overlapping.Valid := by decide +kernel
  have hlabels : ∀ symbol ∈ overlapping.symbols, (Label.ofText symbol).toOption.isSome = true := by
    decide +kernel
  exact toDfa_agrees (validate_eq_ok_iff.2 hvalid) (by decide)
    (fun symbol hs => exists_ok_of_isSome (hlabels symbol hs)) (plainMarker_of_eq rfl)

end Table

end Acceptor
