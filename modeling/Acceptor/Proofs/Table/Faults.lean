/-
Why the stages of a table fail. Main statement: a table that does not make sense is refused by every
stage with the fault that validation tells, and of one that does only the subset construction has
something to refuse: a table without states, and the first state that moves without reading
(`stages_fail_exactly`). What a stage makes makes sense again.
-/
import Acceptor.Proofs.Table.Elimination
import Acceptor.Proofs.Table.Refinement
import Acceptor.Proofs.Table.Subsets

namespace Acceptor.Table

variable {t : Table} {e : Error} {p : String}

/-! ## Tables that do not make sense -/

/-- Validation looks nothing up past the end of a list. -/
theorem ne_noSuchEntry_of_validate (h : t.validate = .error e) (index size : Nat) :
    e ≠ .noSuchEntry index size := by
  have hcolumn : ∀ column, t.columnFault? column ≠ some (.noSuchEntry index size) := by
    intro column
    unfold columnFault?
    split <;> simp
  have hrow : ∀ row, t.rowFault? row ≠ some (.noSuchEntry index size) := by
    intro row hr
    unfold rowFault? at hr
    split at hr
    · cases hr
    · obtain ⟨column, -, hc⟩ := List.exists_of_findSome?_eq_some hr
      exact hcolumn column hc
  rintro rfl
  unfold validate at h
  split at h
  · rename_i hfault
    cases h
    simp only [fault?, Option.or_eq_some_iff, Option.map_eq_some_iff, reduceCtorEq, and_false,
      exists_false, false_or] at hfault
    obtain ⟨row, -, hr⟩ := List.exists_of_findSome?_eq_some hfault.2.2
    exact hrow row hr
  · cases h

theorem refine_of_validate (h : t.validate = .error e) : t.refine = .error e := by
  rw [refine, h]
  rfl

theorem removeEpsilon_of_validate (h : t.validate = .error e) : t.removeEpsilon = .error e := by
  rw [removeEpsilon, h]
  rfl

theorem determinize_of_validate (h : t.validate = .error e) : t.determinize = .error e := by
  rw [determinize, h]
  rfl

theorem toDfa_of_validate (h : t.validate = .error e) : t.toDfa = .error e := by
  rw [toDfa, refine_of_validate h]
  rfl

/-! ## Tables that make sense -/

/-- The first state, in the order of the table, that moves without reading. -/
def FirstSilent (t : Table) (p : String) : Prop :=
  ∃ i : Nat, t.states[i]? = some p ∧ t.targets p t.marker ≠ [] ∧
    ∀ j < i, ∀ q, t.states[j]? = some q → t.targets q t.marker = []

theorem firstEpsilonState?_of_firstSilent (h : t.FirstSilent p) :
    t.firstEpsilonState? = some p := by
  obtain ⟨i, hp, hne, hbefore⟩ := h
  obtain ⟨hi, rfl⟩ := List.getElem?_eq_some_iff.1 hp
  refine List.find?_eq_some_iff_getElem.2 ⟨by simpa using hne, i, hi, rfl, fun j hj => ?_⟩
  simpa using hbefore j hj _ (List.getElem?_eq_getElem (Nat.lt_trans hj hi))

/-- Any table that makes sense is refined, also one with columns that are no labels. -/
theorem Valid.refine_valid (hv : t.Valid) :
    ∃ r, t.refine = .ok r ∧ r.Valid ∧ r.states = t.states := by
  cases hl : t.symbolLabels with
  | error e => exact ⟨t, hv.refine_of_symbolLabels hl, hv, rfl⟩
  | ok labels =>
    obtain ⟨r, hr, h⟩ := hv.exists_split hl
    exact ⟨r, hr, h.valid, h.states_eq⟩

theorem Valid.determinize_of_noStates (hv : t.Valid) (h : t.states = []) :
    t.determinize = .error .noStates := by
  rw [determinize, validate_eq_ok_iff.2 hv, h]
  rfl

theorem Valid.determinize_of_firstEpsilonState? (hv : t.Valid) (hne : t.states ≠ [])
    (h : t.firstEpsilonState? = some p) : t.determinize = .error (.epsilonMoves p) := by
  rw [determinize, validate_eq_ok_iff.2 hv, List.isEmpty_eq_false_iff.2 hne, h]
  rfl

theorem Valid.determinize_valid (hv : t.Valid) (hne : t.states ≠ [])
    (h : ∀ state, t.targets state t.marker = []) :
    ∃ d, t.determinize = .ok d ∧ d.table.validate = .ok () := by
  obtain ⟨d, found, hd, hdet⟩ := hv.exists_determinize hne h
  exact ⟨d, hd, validate_eq_ok_iff.2 hdet.valid⟩

/-- Of a table that makes sense the subset construction refuses nothing else. -/
theorem Valid.ne_noSuchEntry_of_determinize (hv : t.Valid) (h : t.determinize = .error e)
    (index size : Nat) : e ≠ .noSuchEntry index size := by
  by_cases hne : t.states = []
  · rw [hv.determinize_of_noStates hne] at h
    cases h
    exact Error.noConfusion
  cases hfirst : t.firstEpsilonState? with
  | some p =>
    rw [hv.determinize_of_firstEpsilonState? hne hfirst] at h
    cases h
    exact Error.noConfusion
  | none =>
    obtain ⟨d, hd, -⟩ := hv.determinize_valid hne (hv.firstEpsilonState?_eq_none_iff.1 hfirst)
    cases hd.symm.trans h

/-- A table is determinized after it is refined and its moves without reading are removed, so only
the number of its states counts. -/
theorem Valid.toDfa_eq (hv : t.Valid) : ∃ u : Table, t.toDfa = u.determinize ∧ u.Valid ∧
    (∀ state, u.targets state u.marker = []) ∧ (u.states = [] ↔ t.states = []) := by
  obtain ⟨r, hr, hvr, hstates⟩ := hv.refine_valid
  obtain ⟨u, hu, h⟩ := hvr.exists_removeEpsilon
  refine ⟨u, ?_, h.valid, h.targets_marker, hstates ▸ h.states_eq_nil_iff⟩
  rw [toDfa, hr]
  change (r.removeEpsilon >>= _) = _
  rw [hu]
  rfl

/-- Some stage of a table fails with a fault. -/
def Refused (t : Table) (e : Error) : Prop :=
  t.refine = .error e ∨ t.removeEpsilon = .error e ∨ t.determinize = .error e ∨ t.toDfa = .error e

theorem Refused.eq_of_validate {fault : Error} (h : t.Refused e)
    (hfault : t.validate = .error fault) : e = fault := by
  rcases h with he | he | he | he
  · exact Except.error.inj (he.symm.trans (refine_of_validate hfault))
  · exact Except.error.inj (he.symm.trans (removeEpsilon_of_validate hfault))
  · exact Except.error.inj (he.symm.trans (determinize_of_validate hfault))
  · exact Except.error.inj (he.symm.trans (toDfa_of_validate hfault))

/-- No stage looks anything up past the end of a list. -/
theorem Refused.ne_noSuchEntry (h : t.Refused e) (index size : Nat) :
    e ≠ .noSuchEntry index size := by
  cases hok : t.validate with
  | error fault =>
    rw [h.eq_of_validate hok]
    exact ne_noSuchEntry_of_validate hok index size
  | ok =>
    have hv := validate_eq_ok_iff.1 hok
    rcases h with he | he | he | he
    · obtain ⟨r, hr, -⟩ := hv.refine_valid
      cases hr.symm.trans he
    · obtain ⟨r, hr, -⟩ := hv.exists_removeEpsilon
      cases hr.symm.trans he
    · exact hv.ne_noSuchEntry_of_determinize he index size
    · obtain ⟨u, htoDfa, hvu, -⟩ := hv.toDfa_eq
      exact hvu.ne_noSuchEntry_of_determinize (htoDfa ▸ he) index size

/-- A table that does not make sense is refused by each stage with the fault that validation tells.
One that does is refined and its moves without reading are removed; it is determinized unless it
has no states or some state moves without reading, the first of which is told; and it is made
deterministic, through all stages, unless it has no states. The tables that are returned make
sense, and no stage looks anything up past the end of a list. -/
theorem stages_fail_exactly (t : Table) :
    (∀ e, t.validate = .error e → t.refine = .error e ∧ t.removeEpsilon = .error e ∧
      t.determinize = .error e ∧ t.toDfa = .error e) ∧
    (t.validate = .ok () →
      (∃ r, t.refine = .ok r ∧ r.validate = .ok ()) ∧
      (∃ r, t.removeEpsilon = .ok r ∧ r.validate = .ok ()) ∧
      (t.states = [] → t.determinize = .error .noStates ∧ t.toDfa = .error .noStates) ∧
      (t.states ≠ [] →
        (∀ p, t.FirstSilent p → t.determinize = .error (.epsilonMoves p)) ∧
        ((∀ p ∈ t.states, t.targets p t.marker = []) →
          ∃ d, t.determinize = .ok d ∧ d.table.validate = .ok ()) ∧
        ∃ d, t.toDfa = .ok d ∧ d.table.validate = .ok ())) ∧
    ∀ e, t.Refused e → ∀ index size, e ≠ .noSuchEntry index size := by
  refine ⟨fun e he => ⟨refine_of_validate he, removeEpsilon_of_validate he,
    determinize_of_validate he, toDfa_of_validate he⟩, fun hok => ?_, fun e he => he.ne_noSuchEntry⟩
  have hv := validate_eq_ok_iff.1 hok
  obtain ⟨r, hr, hvr, -⟩ := hv.refine_valid
  obtain ⟨r', hr', heliminated⟩ := hv.exists_removeEpsilon
  obtain ⟨u, htoDfa, hvu, hsilent, hstates⟩ := hv.toDfa_eq
  refine ⟨⟨r, hr, validate_eq_ok_iff.2 hvr⟩, ⟨r', hr', validate_eq_ok_iff.2 heliminated.valid⟩,
    fun hnil => ⟨hv.determinize_of_noStates hnil, ?_⟩,
    fun hne => ⟨fun p hp => ?_, fun hall => ?_, ?_⟩⟩
  · rw [htoDfa, hvu.determinize_of_noStates (hstates.2 hnil)]
  · exact hv.determinize_of_firstEpsilonState? hne (firstEpsilonState?_of_firstSilent hp)
  · refine hv.determinize_valid hne (hv.firstEpsilonState?_eq_none_iff.1 ?_)
    exact List.find?_eq_none.2 fun p hp => by simpa using hall p hp
  · rw [htoDfa]
    exact hvu.determinize_valid (fun hnil => hne (hstates.1 hnil)) hsilent

end Acceptor.Table
