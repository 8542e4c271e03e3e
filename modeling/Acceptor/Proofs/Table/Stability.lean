/-
Refined columns are a normal form. A table is settled where its columns read as labels each of whose
classes has one column, so that no character is read by two of them. Main statement: refining a
valid table whose columns are labels gives a settled table, which refining leaves as it is, and a
table with another column is left as it is at once (`refine_stable`).
-/
import Acceptor.Proofs.Table.Refinement

namespace Acceptor.Table

open CharClass

variable {t r : Table} {labels ls : List (String × Label)}

/-! ## Settled tables -/

/-- The columns read as labels, and each of their classes is one column. -/
def Settled (t : Table) : Prop :=
  ∃ labels, t.symbolLabels = .ok labels ∧ ∀ k ∈ classesOf labels, k.members.size = 1

theorem Settled.separate (h : t.Settled) : t.Separate := by
  obtain ⟨labels, hlabels, hsize⟩ := h
  exact separate_of_all_size hlabels hsize

theorem Settled.exists_label (h : t.Settled) :
    ∀ symbol ∈ t.symbols, ∃ l, Label.ofText symbol = .ok l := by
  obtain ⟨labels, hlabels, -⟩ := h
  exact fun symbol hs => label_of_symbolLabels hlabels hs

theorem Settled.refine_eq (h : t.Settled) (hv : t.Valid) : t.refine = .ok t := by
  obtain ⟨labels, hlabels, hsize⟩ := h
  rcases hv.refine_cases hlabels with ⟨-, hr⟩ | ⟨⟨k, hk, hne⟩, -⟩
  · exact hr
  · exact absurd (hsize k hk) hne

/-! ## Columns of classes -/

/-- The marker is left out of the columns of the classes, with any class that is named like it. -/
theorem symbols_refinedBase : (t.refinedBase labels).symbols =
    ((classesOf labels).map (t.className ·.label)).filter (!t.isMarker ·) := by
  show (t.refinedAlphabet labels).filter (!t.isMarker ·) = _
  unfold refinedAlphabet
  rw [List.filter_append]
  split <;> simp [isMarker]

theorem nodup_symbols_refinedBase (h : t.symbolLabels = .ok labels) :
    (t.refinedBase labels).symbols.Nodup := by
  rw [symbols_refinedBase]
  refine List.Nodup.filter _ ((nodup_partition _).map_on fun k hk k' hk' hname => ?_)
  exact eq_of_className_eq h hk' hk hname

/-- A property of labels that one class at most has is one of one column at most. -/
theorem eq_of_mem_positions (h : t.symbolLabels = .ok labels)
    (hr : r.symbols = (t.refinedBase labels).symbols) (hls : r.symbolLabels = .ok ls)
    {q : Label → Bool}
    (hq : ∀ k ∈ classesOf labels, ∀ k' ∈ classesOf labels,
      q (t.classLabel k.label) = true → q (t.classLabel k'.label) = true → k = k') :
    ∀ m ∈ IndexSet.positions q (ls.map Prod.snd), ∀ n ∈ IndexSet.positions q (ls.map Prod.snd),
      m = n := by
  have hclass : ∀ m ∈ IndexSet.positions q (ls.map Prod.snd), ∃ k ∈ classesOf labels,
      r.symbols[m]? = some (t.className k.label) ∧ q (t.classLabel k.label) = true := by
    intro m hm
    obtain ⟨a, l, ha, hl, hql⟩ := (mem_positions_iff hls).1 hm
    obtain ⟨k, hk, rfl, -⟩ := mem_symbols_refinedBase.1 (hr ▸ List.mem_of_getElem? ha)
    cases (ofText_className h hk).symm.trans hl
    exact ⟨k, hk, ha, hql⟩
  intro m hm n hn
  obtain ⟨k, hk, hkm, hqk⟩ := hclass m hm
  obtain ⟨k', hk', hkn, hqk'⟩ := hclass n hn
  obtain rfl := hq k hk k' hk' hqk hqk'
  have hnodup : r.symbols.Nodup := hr ▸ nodup_symbols_refinedBase h
  exact (List.getElem?_inj (List.getElem?_eq_some_iff.1 hkm).1 hnodup).1 (hkm.trans hkn.symm)

/-- A table whose columns are the classes of a table is settled. -/
theorem settled_of_symbols_eq (h : t.symbolLabels = .ok labels)
    (hr : r.symbols = (t.refinedBase labels).symbols) : r.Settled := by
  obtain ⟨ls, hls⟩ : ∃ ls, r.symbolLabels = .ok ls := by
    refine exists_symbolLabels fun symbol hs => ?_
    obtain ⟨k, hk, rfl, -⟩ := mem_symbols_refinedBase.1 (hr ▸ hs)
    exact ⟨_, ofText_className h hk⟩
  refine ⟨ls, hls, fun k hk => size_members_eq_one (fun c => ?_) ?_ hk⟩
  · refine eq_of_mem_positions h hr hls fun k hk k' hk' hc hc' => ?_
    rw [reads_classLabel] at hc hc'
    exact (of_reads hk' hc').2 k hk hc
  · refine eq_of_mem_positions h hr hls fun k hk k' hk' hc hc' => ?_
    rw [isCofinite_classLabel] at hc hc'
    exact eq_of_isCofinite hk hk' hc hc'

/-! ## Refining again -/

theorem Valid.exists_settled (hv : t.Valid) (h : t.symbolLabels = .ok labels) :
    ∃ r, t.refine = .ok r ∧ r.Valid ∧ r.Settled := by
  rcases hv.refine_cases h with ⟨hsize, hr⟩ | ⟨-, rows, hrows, hr⟩
  · exact ⟨t, hr, hv, labels, h, hsize⟩
  · exact ⟨_, hr, hv.valid_refined hrows, settled_of_symbols_eq h (symbols_store _ _)⟩

/-- Refined columns are separate, readable and stable. Refining a table that makes sense succeeds
where its columns read as labels. The refined table makes sense, its columns read as labels, no
character is read by two of them, wherever they stand, and refining it again changes nothing. A
table with a column that reads as no label is left as it is. -/
theorem refine_stable {t : Table} (hv : t.validate = .ok ()) :
    ((∀ symbol ∈ t.symbols, ∃ l, Label.ofText symbol = .ok l) →
      ∃ r, t.refine = .ok r ∧ r.validate = .ok () ∧
        (∀ symbol ∈ r.symbols, ∃ l, Label.ofText symbol = .ok l) ∧ r.Separate ∧
        r.refine = .ok r) ∧
    ((∃ symbol ∈ t.symbols, ∀ l, Label.ofText symbol ≠ .ok l) → t.refine = .ok t) := by
  have hv := validate_eq_ok_iff.1 hv
  constructor
  · intro hl
    obtain ⟨labels, hlabels⟩ := exists_symbolLabels hl
    obtain ⟨r, hr, hvr, hsettled⟩ := hv.exists_settled hlabels
    exact ⟨r, hr, validate_eq_ok_iff.2 hvr, hsettled.exists_label, hsettled.separate,
      hsettled.refine_eq hvr⟩
  · rintro ⟨symbol, hs, hnone⟩
    cases hlabels : t.symbolLabels with
    | error e => exact hv.refine_of_symbolLabels hlabels
    | ok labels =>
      obtain ⟨l, hl⟩ := label_of_symbolLabels hlabels hs
      exact absurd hl (hnone l)

/-- A table with a range that starts with a caret, an exclusion that looks like it, a column for any
character, one that reads nothing and one that is there twice. -/
def caretColumns : Table :=
  (((ofStates ["p", "q", "r"] ["[^-a]", "[^a-b]", ".", "ε", "[^-a]", "λ"] "λ").store
    [⟨"p", "[^-a]", ["q", "q"]⟩, ⟨"p", ".", ["r"]⟩, ⟨"p", "ε", ["p"]⟩, ⟨"q", "[^a-b]", ["r", "p"]⟩,
      ⟨"r", "λ", ["q"]⟩]).markStart 0).markFinal 2

/-- A table with a column that reads as no label between overlapping ones. -/
def misspelt : Table :=
  ((ofStates ["p", "q"] ["[a-c]", "[a-", "b"] "ε").store [⟨"p", "[a-", ["q"]⟩]).markFinal 1

theorem refine_stable_caret :
    (∃ r, caretColumns.refine = .ok r ∧ r.validate = .ok () ∧
      (∀ symbol ∈ r.symbols, ∃ l, Label.ofText symbol = .ok l) ∧ r.Separate ∧
      r.refine = .ok r) ∧ misspelt.refine = .ok misspelt := by
  have hvalid : caretColumns.Valid ∧ misspelt.Valid := by decide +kernel
  have hlabels : ∀ symbol ∈ caretColumns.symbols, (Label.ofText symbol).toOption.isSome = true := by
    decide +kernel
  have hnone : "[a-" ∈ misspelt.symbols ∧ (Label.ofText "[a-").toOption = none := by decide +kernel
  constructor
  · exact (refine_stable (validate_eq_ok_iff.2 hvalid.1)).1 fun symbol hs =>
      exists_ok_of_isSome (hlabels symbol hs)
  · refine (refine_stable (validate_eq_ok_iff.2 hvalid.2)).2 ⟨_, hnone.1, fun l hl => ?_⟩
    rw [hl] at hnone
    exact Option.some_ne_none l hnone.2

end Acceptor.Table
