/-
Making the columns of a table disjoint, whatever its marker is. Main statement: the refined table
has the states and the marks of the table, and its moves without reading and its words are those
that splitting the columns leaves, which are those of the table where no class that is followed is
named like the marker (`refine_exact`).
-/
import Acceptor.Proofs.Table.Refinement

namespace Acceptor.Table

variable {t r : Table} {labels : List (String × Label)} {i j : Nat}

theorem Split.follows_marker_iff (h : Split t r) :
    r.Follows i r.marker j ↔ t.SplitFollows i j := by
  rw [← arrows_nil_iff, h.arrows_eq]
  simp [splitArrows]

theorem Split.startsAt_iff (h : Split t r) : r.StartsAt i ↔ t.StartsAt i := by
  rw [StartsAt, StartsAt, h.starts_eq]

theorem Split.mem_language_iff (h : Split t r) {w : List Char} :
    w ∈ r.language ↔ ∃ i j, t.StartsAt i ∧ j ∈ t.finals ∧ t.splitArrows.Path i w j := by
  simp only [← h.startsAt_iff, ← mem_initial_iff, ← h.arrows_eq, ← h.finals_eq]
  exact Iff.rfl

theorem Split.decides_accepts (h : Split t r) (hne : t.states ≠ []) (input : String) :
    Decides (r.accepts input)
      (∃ i j, t.StartsAt i ∧ j ∈ t.finals ∧ t.splitArrows.Path i input.toList j) := by
  obtain ⟨ls, hls⟩ := h.labels
  exact (h.valid.decides_accepts (h.states_eq ▸ hne) hls input).congr h.mem_language_iff

/-- A refined table answers as the table does, with a fault where there are no states. -/
theorem Refined.accepts_eq (h : Refined t r) (hv : t.Valid) (hl : t.symbolLabels = .ok labels)
    (input : String) : r.accepts input = t.accepts input := by
  by_cases hne : t.states = []
  · rw [hv.accepts_of_noStates hne, h.valid.accepts_of_noStates (h.states_eq.trans hne)]
  · obtain ⟨ls, hls⟩ := h.labels
    have hdecides := h.valid.decides_accepts (h.states_eq ▸ hne) hls input
    rw [h.language_eq] at hdecides
    exact hdecides.unique (hv.decides_accepts hne hl input)

/-- Refining a table that makes sense succeeds where its columns read as labels, whatever its marker
is. The refined table makes sense, and has its states, marks and marker. It moves without reading,
and answers to every input, as splitting the columns leaves it, where a class that is named like
the marker is followed without reading instead. If no such class is followed by any state, these
are the moves and the answers of the table. -/
theorem refine_exact {t : Table} (hv : t.validate = .ok ())
    (hl : ∀ symbol ∈ t.symbols, ∃ l, Label.ofText symbol = .ok l) :
    ∃ r, t.refine = .ok r ∧ r.validate = .ok () ∧ r.states = t.states ∧ r.starts = t.starts ∧
      r.finals = t.finals ∧ r.marker = t.marker ∧
      (∀ i j, r.Follows i r.marker j ↔ t.SplitFollows i j) ∧
      (t.states ≠ [] → ∀ input : String,
        (r.accepts input = .ok true ↔
          ∃ i j, t.StartsAt i ∧ j ∈ t.finals ∧ t.splitArrows.Path i input.toList j) ∧
        (r.accepts input = .ok false ↔
          ¬ ∃ i j, t.StartsAt i ∧ j ∈ t.finals ∧ t.splitArrows.Path i input.toList j)) ∧
      ((∀ k, t.Marked k → ∀ i j, ¬ t.FollowsClass k i j) →
        (∀ i j, r.Follows i r.marker j ↔ t.Follows i t.marker j) ∧
        ∀ input : String, r.accepts input = t.accepts input) := by
  have hv := validate_eq_ok_iff.1 hv
  obtain ⟨labels, hlabels⟩ := exists_symbolLabels hl
  obtain ⟨r, hr, h⟩ := hv.exists_split hlabels
  refine ⟨r, hr, validate_eq_ok_iff.2 h.valid, h.states_eq, h.starts_eq, h.finals_eq, h.marker_eq,
    fun i j => h.follows_marker_iff, fun hne input => ?_, fun hidle => ⟨fun i j => ?_, ?_⟩⟩
  · obtain ⟨answer, hanswer, hiff⟩ := h.decides_accepts hne input
    rw [hanswer, ← hiff]
    simp
  · rw [← arrows_nil_iff, ← arrows_nil_iff, h.arrows_eq, splitArrows_eq hidle]
  · exact (h.refined hidle).accepts_eq hv hlabels

/-- A table with a range for a marker, which is also the characters that its first two columns have
in common. One of its states moves without reading already. -/
def clashing : Table :=
  (((ofStates ["p", "q", "r"] ["[a-c]", "[^c-x]", "[c-d]", "[a-b]"] "[a-b]").store
    [⟨"p", "[a-c]", ["q"]⟩, ⟨"q", "[a-b]", ["r"]⟩, ⟨"q", "[^c-x]", ["p"]⟩,
      ⟨"r", "[c-d]", ["p", "q"]⟩]).markFinal 1).markFinal 2

theorem refine_exact_clashing :
    ∃ r, clashing.refine = .ok r ∧ r.validate = .ok () ∧ r.states = clashing.states ∧
      r.starts = clashing.starts ∧ r.finals = clashing.finals ∧ r.marker = clashing.marker ∧
      (∀ i j, r.Follows i r.marker j ↔ clashing.SplitFollows i j) ∧
      (clashing.states ≠ [] → ∀ input : String,
        (r.accepts input = .ok true ↔ ∃ i j, clashing.StartsAt i ∧ j ∈ clashing.finals ∧
          clashing.splitArrows.Path i input.toList j) ∧
        (r.accepts input = .ok false ↔ ¬ ∃ i j, clashing.StartsAt i ∧ j ∈ clashing.finals ∧
          clashing.splitArrows.Path i input.toList j)) ∧
      ((∀ k, clashing.Marked k → ∀ i j, ¬ clashing.FollowsClass k i j) →
        (∀ i j, r.Follows i r.marker j ↔ clashing.Follows i clashing.marker j) ∧
        ∀ input : String, r.accepts input = clashing.accepts input) := by
  have hvalid : clashing.Valid := by decide +kernel
  have hlabels : ∀ symbol ∈ clashing.symbols, (Label.ofText symbol).toOption.isSome = true := by
    decide +kernel
  exact refine_exact (validate_eq_ok_iff.2 hvalid)
    fun symbol hs => exists_ok_of_isSome (hlabels symbol hs)

/-- A table with a range for a marker, one of whose classes is that range. -/
def shadowed : Table :=
  (((ofStates ["p", "q"] ["[a-c]", "[c-d]"] "[a-b]").store [⟨"p", "[a-c]", ["q"]⟩]).markStart 0
    ).markFinal 1

/-- A refined table need not move without reading, nor answer, as the table does. -/
theorem refine_changes_shadowed : ¬ ∀ t : Table, t.validate = .ok () →
    (∀ symbol ∈ t.symbols, ∃ l, Label.ofText symbol = .ok l) →
    ∃ r, t.refine = .ok r ∧ r.states = t.states ∧ r.starts = t.starts ∧ r.finals = t.finals ∧
      r.marker = t.marker ∧ (∀ i j, r.Follows i r.marker j ↔ t.Follows i t.marker j) ∧
      ∀ input : String, r.accepts input = t.accepts input := by
  intro h
  have hvalid : shadowed.Valid := by decide +kernel
  have hlabels : ∀ symbol ∈ shadowed.symbols, (Label.ofText symbol).toOption.isSome = true := by
    decide +kernel
  obtain ⟨r, hr, -, -, -, -, -, haccepts⟩ := h shadowed (validate_eq_ok_iff.2 hvalid)
    fun symbol hs => exists_ok_of_isSome (hlabels symbol hs)
  have hrefined : (shadowed.refine >>= fun r => r.accepts "").toOption = some true := by
    decide +kernel
  have hfirst : (shadowed.accepts "").toOption = some false := by decide +kernel
  rw [hr] at hrefined
  change (r.accepts "").toOption = _ at hrefined
  rw [haccepts "", hfirst] at hrefined
  cases hrefined

end Acceptor.Table
