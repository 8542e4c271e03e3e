/-
Tables without moves without reading. Main statements: tables that are alike in what counts for
elimination are turned into the same table (`Valid.removeEpsilon_congr`), and a table is alike to
what is made of it, so elimination leaves its own results as they are; they answer every input like
the table that they were made from (`removeEpsilon_agrees`).
-/
import Acceptor.Proofs.Table.Elimination

namespace Acceptor.Table

variable {t r : Table} {c d : Closures} {s s' : IndexSet} {i : Nat}

/-! ## What elimination depends on -/

/-- Tables of the same size, columns, marker and start states, in which the same states lead to
final ones without reading, and the same states follow each other in a column with moves without
reading around it. -/
structure Alike (r t : Table) : Prop where
  size_eq : r.size = t.size
  symbols_eq : r.symbols = t.symbols
  marker_eq : r.marker = t.marker
  starts_eq : r.starts = t.starts
  final_iff : ∀ i < t.size, (∃ k ∈ r.finals, r.Reaches i k) ↔ ∃ k ∈ t.finals, t.Reaches i k
  follows_iff : ∀ a ∈ t.symbols, ∀ i j, r.FollowsAround i a j ↔ t.FollowsAround i a j

theorem Alike.newNames_eq (h : r.Alike t) : r.newNames = t.newNames := by
  rw [newNames, h.size_eq]

theorem Alike.eliminatedBase_eq (h : r.Alike t) (hd : Closes d r) (hc : Closes c t) :
    r.eliminatedBase d = t.eliminatedBase c := by
  have hfinals : (r.eliminatedBase d).finals = (t.eliminatedBase c).finals := by
    refine OrderedSet.ext fun i => ?_
    rw [hd.mem_finals_iff, hc.mem_finals_iff, h.size_eq]
    exact and_congr_right (h.final_iff i)
  change Table.mk r.newNames r.symbols r.marker .empty r.starts (r.eliminatedBase d).finals = _
  rw [h.newNames_eq, h.symbols_eq, h.marker_eq, h.starts_eq, hfinals]
  rfl

/-- The entries of a state are the same. -/
theorem Alike.reachedCells_eq (h : r.Alike t) (hr : r.Valid) (ht : t.Valid) (hd : Closes d r)
    (hc : Closes c t) (hs' : d.sets[i]? = some s') (hs : c.sets[i]? = some s) :
    r.reachedCells d r.newNames (s', i) = t.reachedCells c t.newNames (s, i) := by
  have hir : i < r.size := hd.size_eq ▸ (List.getElem?_eq_some_iff.1 hs').1
  have hit : i < t.size := hc.size_eq ▸ (List.getElem?_eq_some_iff.1 hs).1
  -- both are the set of what follows the state, and a set is determined by its members
  have hreached : ∀ a ∈ t.symbols, r.reachedBy d s' a = t.reachedBy c s a := by
    intro a ha
    have hfinds := (hr.finds_reachedBy hd (hd.mem_iff i s' hs') hir a).congr (h.follows_iff a ha i)
    exact hfinds.unique (ht.finds_reachedBy hc (hc.mem_iff i s hs) hit a)
  rw [reachedCells, reachedCells, h.symbols_eq, h.newNames_eq]
  refine mapM_eq_of_forall₂ (List.forall₂_same.2 fun a ha => ?_)
  rw [hreached a ha]

/-- What elimination makes of tables that are alike is the same. -/
theorem Valid.removeEpsilon_congr (hr : r.Valid) (ht : t.Valid) (h : r.Alike t) :
    r.removeEpsilon = t.removeEpsilon := by
  obtain ⟨d, hdok, hd⟩ := hr.exists_closures
  obtain ⟨c, hcok, hc⟩ := ht.exists_closures
  have hrows : d.sets.zipIdx.mapM (r.reachedCells d r.newNames) =
      c.sets.zipIdx.mapM (t.reachedCells c t.newNames) := by
    have hlen : d.sets.length = c.sets.length :=
      hd.size_eq.trans (h.size_eq.trans hc.size_eq.symm)
    refine mapM_eq_of_forall₂ (List.forall₂_of_length_eq_of_get (by simpa using hlen) ?_)
    intro i hi hi'
    simp only [List.get_eq_getElem, List.getElem_zipIdx, Nat.zero_add]
    exact h.reachedCells_eq hr ht hd hc (List.getElem?_eq_getElem _) (List.getElem?_eq_getElem _)
  rw [hr.removeEpsilon_eq hdok hd, ht.removeEpsilon_eq hcok hc, hrows, h.eliminatedBase_eq hd hc]

/-! ## Elimination of what it has made -/

/-- What elimination depends on is the same in the table that it makes. -/
theorem Eliminated.alike (h : Eliminated t r) : r.Alike t where
  size_eq := h.size_eq
  symbols_eq := h.symbols_eq
  marker_eq := h.marker_eq
  starts_eq := h.starts_eq
  final_iff i hi := by
    refine Iff.trans ⟨?_, fun hf => ⟨i, hf, .nil⟩⟩ ((h.mem_finals_iff i).trans (and_iff_right hi))
    rintro ⟨k, hk, hr⟩
    rwa [eq_of_reaches h.targets_marker hr]
  follows_iff a ha i j := by
    refine Iff.trans ⟨?_, fun hf => ⟨i, j, .nil, hf, .nil⟩⟩ (h.follows_iff a ha i j)
    rintro ⟨q, e, hiq, hqe, hej⟩
    rwa [eq_of_reaches h.targets_marker hiq, ← eq_of_reaches h.targets_marker hej]

/-- Any table that makes sense is turned into one that makes sense, has no moves without reading
and gives the same answer to every input, be it a fault. Turned again, that one stays the same. -/
theorem removeEpsilon_agrees {t : Table} (hv : t.validate = .ok ()) :
    ∃ r, t.removeEpsilon = .ok r ∧ r.validate = .ok () ∧ r.hasEpsilonMoves = false ∧
      (∀ input : String, r.accepts input = t.accepts input) ∧ r.removeEpsilon = .ok r := by
  have hvalid := validate_eq_ok_iff.1 hv
  obtain ⟨r, hr, h⟩ := hvalid.exists_removeEpsilon
  refine ⟨r, hr, validate_eq_ok_iff.2 h.valid,
    h.valid.hasEpsilonMoves_eq_false_iff.2 h.targets_marker, fun input => ?_,
    (h.valid.removeEpsilon_congr hvalid h.alike).trans hr⟩
  exact h.valid.accepts_eq hvalid h.states_eq_nil_iff h.symbols_eq (h.language_eq hvalid) input

theorem removeEpsilon_agrees_cycling : ∃ r, cycling.removeEpsilon = .ok r ∧
    r.validate = .ok () ∧ r.hasEpsilonMoves = false ∧
    (∀ input : String, r.accepts input = cycling.accepts input) ∧ r.removeEpsilon = .ok r := by
  have hvalid : cycling.Valid := by decide +kernel
  exact removeEpsilon_agrees (validate_eq_ok_iff.2 hvalid)

end Acceptor.Table
