/-
Two runs of the subset construction side by side. Where the sets of one table are matched with
those of another so that matched sets lead on to matched ones (`Mirrors`), both runs find matched
sets in the same order and give them the same rows. Main statement: then the deterministic tables
are the same (`Mirrors.deterministic_eq`).
-/
import Acceptor.Proofs.Table.Subsets

namespace Acceptor.Table

variable {t u : Table} {R : IndexSet → IndexSet → Prop} {s x current current' : IndexSet}
variable {found found' : List IndexSet} {e e' : Exploration} {a : String} {k : Nat}

/-! ## Side by side -/

/-- Sets of two tables are matched, each with one other, and lead on alike in each column: both to
nothing, or to sets that are matched again. -/
structure Mirrors (t u : Table) (R : IndexSet → IndexSet → Prop) : Prop where
  symbols_eq : u.symbols = t.symbols
  marker_eq : u.marker = t.marker
  initial : R t.initial u.initial
  eq_iff : ∀ {s s' x x'}, R s x → R s' x' → (s = s' ↔ x = x')
  follow : ∀ {s x a}, R s x → a ∈ t.symbols → ∃ next next', t.follow s a = .ok next ∧
    u.follow x a = .ok next' ∧ next.isEmpty = next'.isEmpty ∧ (next.isEmpty = false → R next next')
  final_eq : ∀ {s x}, R s x → s.any t.isFinal = x.any u.isFinal

/-- Sets that are matched place by place. -/
abbrev Matched (R : IndexSet → IndexSet → Prop) (found found' : List IndexSet) : Prop :=
  List.Forall₂ R found found'

namespace Mirrors

/-- Matched sets stand at the same place. -/
theorem findIdx?_eq (h : Mirrors t u R) (hf : Matched R found found') (hs : R s x) :
    found'.findIdx? (· = x) = found.findIdx? (· = s) := by
  induction hf with
  | nil => rfl
  | cons hR _ ih => simp only [List.findIdx?_cons, h.eq_iff hR hs, ih]

/-- Following one more symbol in both tables. -/
theorem exists_exploreSymbol (h : Mirrors t u R) (hs : R current current') (ha : a ∈ t.symbols)
    (hf : Matched R found found') (row : Dict (List String)) : ∃ found₁ found₁' row₁,
      t.exploreSymbol current (found, row) a = .ok (found₁, row₁) ∧
      u.exploreSymbol current' (found', row) a = .ok (found₁', row₁) ∧
      Matched R found₁ found₁' := by
  obtain ⟨next, next', hnext, hnext', hempty, hR⟩ := h.follow hs ha
  simp only [exploreSymbol, hnext, hnext', bind, Except.bind]
  rw [← hempty]
  cases hne : next.isEmpty with
  | true => exact ⟨_, _, _, rfl, rfl, hf⟩
  | false =>
    rw [h.findIdx?_eq hf (hR hne)]
    cases found.findIdx? (· = next) with
    | some k => exact ⟨_, _, _, rfl, rfl, hf⟩
    | none =>
      rw [← hf.length_eq]
      exact ⟨_, _, _, rfl, rfl, List.rel_append hf (.cons (hR hne) .nil)⟩

/-- Following all symbols in both tables. -/
theorem exists_exploreSymbols (h : Mirrors t u R) (hs : R current current') {symbols : List String}
    (hsymbols : ∀ a ∈ symbols, a ∈ t.symbols) (hf : Matched R found found')
    (row : Dict (List String)) : ∃ found₁ found₁' row₁,
      symbols.foldlM (t.exploreSymbol current) (found, row) = .ok (found₁, row₁) ∧
      symbols.foldlM (u.exploreSymbol current') (found', row) = .ok (found₁', row₁) ∧
      Matched R found₁ found₁' := by
  induction symbols generalizing found found' row with
  | nil => exact ⟨_, _, _, rfl, rfl, hf⟩
  | cons a symbols ih =>
    obtain ⟨ha, hsymbols⟩ := List.forall_mem_cons.1 hsymbols
    obtain ⟨found₁, found₁', row₁, hok, hok', hf₁⟩ := h.exists_exploreSymbol hs ha hf row
    simp only [List.foldlM_cons, hok, hok']
    exact ih hsymbols hf₁ row₁

/-- Where one run goes through all sets so does the other: both find matched sets in the same order,
with the same rows. -/
theorem exists_explores (h : Mirrors t u R) {last : Exploration} (hrun : t.Explores k e last)
    (hf : Matched R e.found e'.found) (hrows : e'.rows = e.rows) : ∃ last',
      u.Explores k e' last' ∧ Matched R last.found last'.found ∧ last'.rows = last.rows := by
  induction hrun generalizing e' with
  | done hk =>
    have hlen := List.getElem?_eq_none_iff.1 hk
    exact ⟨e', .done (List.getElem?_eq_none (hf.length_eq ▸ hlen)), hf, hrows⟩
  | @next k e last current found₁ row hk hfold _ ih =>
    obtain ⟨current', hk', hs⟩ := forall₂_getElem?_left hf hk
    obtain ⟨_, found₁', row', hfold₁, hfold', hf₁⟩ :=
      h.exists_exploreSymbols hs (fun _ ha => ha) hf .empty
    cases hfold.symm.trans hfold₁
    have hrows₁ : e'.rows.insert (subsetName k) row = e.rows.insert (subsetName k) row := by
      rw [hrows]
    obtain ⟨last', hrun', hmatched⟩ := @ih ⟨found₁', _⟩ hf₁ hrows₁
    exact ⟨last', .next hk' (h.symbols_eq ▸ hfold') hrun', hmatched⟩

/-- Whole runs that succeed, each with the fuel of its own table. -/
theorem matched (h : Mirrors t u R) {fuel fuel' : Nat}
    (he : t.explore fuel 0 ⟨[t.initial], .empty⟩ = .ok e)
    (he' : u.explore fuel' 0 ⟨[u.initial], .empty⟩ = .ok e') :
    Matched R e.found e'.found ∧ e'.rows = e.rows := by
  have hstart : Matched R (Exploration.mk [t.initial] .empty).found
      (Exploration.mk [u.initial] .empty).found := .cons h.initial .nil
  obtain ⟨last', hrun', hmatched⟩ := h.exists_explores (explores_of_explore he) hstart rfl
  obtain rfl := hrun'.unique (explores_of_explore he')
  exact hmatched

end Mirrors

/-! ## The same table -/

/-- Runs side by side end with the same table. -/
theorem Mirrors.deterministic_eq (h : Mirrors t u R) (he : t.Exploring e.found.length e)
    (he' : u.Exploring e'.found.length e') (hf : Matched R e.found e'.found)
    (hrows : e'.rows = e.rows) : u.deterministic e' = t.deterministic e := by
  -- the names depend on the number of sets alone
  have hstates : (u.deterministic e').states = (t.deterministic e).states := by
    refine OrderedSet.eq_of_pairwise (namedSets e'.found).increasing
      (namedSets e.found).increasing fun p => ?_
    refine mem_states_deterministic.trans ?_
    rw [← hf.length_eq]
    exact mem_states_deterministic.symm
  have hstarts : (u.deterministic e').starts = (t.deterministic e).starts := by
    refine OrderedSet.ext fun y => ?_
    rw [he'.determinized.mem_starts_iff, he.determinized.mem_starts_iff, hstates]
  have hfinals : (u.deterministic e').finals = (t.deterministic e).finals := by
    refine OrderedSet.ext fun y => ?_
    rw [he'.determinized.mem_finals_iff, he.determinized.mem_finals_iff, hstates]
    constructor
    · rintro ⟨k, x, hk, hx, hany⟩
      obtain ⟨s, hs, hR⟩ := forall₂_getElem?_right hf hx
      exact ⟨k, s, hk, hs, (h.final_eq hR).trans hany⟩
    · rintro ⟨k, s, hk, hs, hany⟩
      obtain ⟨x, hx, hR⟩ := forall₂_getElem?_left hf hs
      exact ⟨k, x, hk, hx, (h.final_eq hR).symm.trans hany⟩
  exact Table.mk.injEq .. ▸ ⟨hstates, h.symbols_eq, h.marker_eq, hrows, hstarts, hfinals⟩

end Acceptor.Table
