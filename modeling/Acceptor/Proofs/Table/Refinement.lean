/-
Making the columns of a table disjoint. Main statements, for any table whose columns are labels: the
refined table has disjoint columns, and its moves are those of the table unless a class is named
like the marker (`Valid.exists_split`). None is where the marker does not read as a range or as a
list of intervals, and the refined table then has the same moves (`Valid.exists_refine`).
-/
import Acceptor.Proofs.CharClass.Labels
import Acceptor.Proofs.Table.Acceptance
import Acceptor.Table.Refinement

namespace Acceptor.Table

open CharClass

variable {t : Table} {labels : List (String × Label)} {k : CharClass} {l : Label} {c : Char}
  {i j : Nat} {p symbol : String}

/-- The marker does not read as a range or as a list of intervals, which a class may be named by. -/
def PlainMarker (t : Table) : Prop :=
  ∀ l, Label.ofText t.marker = .ok l → (∀ lo hi, l ≠ .range lo hi) ∧ ∀ is, l ≠ .noneOf is

theorem plainMarker_of_eq (h : t.marker = usualMarker) : t.PlainMarker := by
  intro l hl
  rw [h, usualMarker, Label.ofText_text (l := .epsilon) trivial] at hl
  cases hl
  exact ⟨fun _ _ => Label.noConfusion, fun _ => Label.noConfusion⟩

/-- No character is read by two columns. -/
def Disjoint (t : Table) : Prop :=
  ∀ a ∈ t.symbols, ∀ b ∈ t.symbols, ∀ l m, Label.ofText a = .ok l → Label.ofText b = .ok m →
    ∀ c, l.reads c = true → m.reads c = true → a = b

/-- No character is read by the columns at two positions. -/
def Separate (t : Table) : Prop :=
  ∀ (m n : Nat) (a b : String), t.symbols[m]? = some a → t.symbols[n]? = some b →
    ∀ l l', Label.ofText a = .ok l → Label.ofText b = .ok l' →
      ∀ c, l.reads c = true → l'.reads c = true → m = n

theorem Separate.disjoint (h : t.Separate) : t.Disjoint := by
  intro a ha b hb l l' hl hl' c hlc hlc'
  obtain ⟨m, hm⟩ := List.mem_iff_getElem?.1 ha
  obtain ⟨n, hn⟩ := List.mem_iff_getElem?.1 hb
  rw [h m n a b hm hn l l' hl hl' c hlc hlc', hn] at hm
  exact (Option.some.inj hm).symm

/-! ## Names of classes -/

/-- The label by whose text the column of a class is named. -/
def classLabel (t : Table) : Label → Label
  | .literal c => if t.isMarker (Label.literal c).text then .range c c else .literal c
  | label => label

theorem className_eq (t : Table) (l : Label) : t.className l = (t.classLabel l).text := by
  cases l with
  | literal c =>
    unfold className classLabel
    dsimp only
    split <;> rfl
  | epsilon => rfl
  | any => rfl
  | range => rfl
  | oneOf => rfl
  | noneOf => rfl

theorem classLabel_eq (t : Table) (l : Label) :
    t.classLabel l = l ∨ ∃ c, l = .literal c ∧ t.classLabel l = .range c c := by
  cases l with
  | literal c =>
    unfold classLabel
    dsimp only
    split
    · exact .inr ⟨c, rfl, rfl⟩
    · exact .inl rfl
  | epsilon => exact .inl rfl
  | any => exact .inl rfl
  | range => exact .inl rfl
  | oneOf => exact .inl rfl
  | noneOf => exact .inl rfl

theorem reads_classLabel : (t.classLabel l).reads c = l.reads c := by
  rcases classLabel_eq t l with he | ⟨d, rfl, he⟩
  · rw [he]
  · rw [he, Bool.eq_iff_iff]
    exact Interval.contains_single.trans decide_eq_true_iff.symm

theorem isCofinite_classLabel : (t.classLabel l).isCofinite = l.isCofinite := by
  rcases classLabel_eq t l with he | ⟨d, rfl, he⟩
  · rw [he]
  · rw [he]
    rfl

theorem wellFormed_classLabel (h : l.WellFormed) : (t.classLabel l).WellFormed := by
  rcases classLabel_eq t l with he | ⟨d, rfl, he⟩
  · rwa [he]
  · rw [he]
    exact le_refl d

/-! ## Columns and classes -/

theorem getElem?_symbolLabels (h : t.symbolLabels = .ok labels) {m : Nat} :
    (labels.map Prod.snd)[m]? = some l ↔
      ∃ a, t.symbols[m]? = some a ∧ Label.ofText a = .ok l := by
  have hall := mapM_eq_ok_iff.1 h
  rw [List.getElem?_map, Option.map_eq_some_iff]
  constructor
  · rintro ⟨e, he, rfl⟩
    obtain ⟨a, ha, hea⟩ := forall₂_getElem?_right hall he
    obtain ⟨l, hl, rfl⟩ := map_eq_ok_iff.1 hea
    exact ⟨a, ha, hl⟩
  · rintro ⟨a, ha, hl⟩
    obtain ⟨e, he, hea⟩ := forall₂_getElem?_left hall ha
    obtain ⟨l', hl', rfl⟩ := map_eq_ok_iff.1 hea
    cases hl.symm.trans hl'
    exact ⟨_, he, rfl⟩

theorem length_symbolLabels (h : t.symbolLabels = .ok labels) :
    (labels.map Prod.snd).length = t.symbols.length := by
  rw [List.length_map, (mapM_eq_ok_iff.1 h).length_eq]

/-- The classes of the columns of a table. -/
abbrev classesOf (labels : List (String × Label)) : List CharClass :=
  partition (labels.map Prod.snd)

/-- The positions of the columns whose labels have a property. -/
theorem mem_positions_iff (h : t.symbolLabels = .ok labels) {q : Label → Bool} {m : Nat} :
    m ∈ IndexSet.positions q (labels.map Prod.snd) ↔
      ∃ a l, t.symbols[m]? = some a ∧ Label.ofText a = .ok l ∧ q l = true := by
  rw [IndexSet.mem_positions]
  simp only [getElem?_symbolLabels h]
  constructor
  · rintro ⟨l, ⟨a, ha, hl⟩, hq⟩
    exact ⟨a, l, ha, hl, hq⟩
  · rintro ⟨a, l, ha, hl, hq⟩
    exact ⟨l, ⟨a, ha, hl⟩, hq⟩

theorem mem_readers_iff (h : t.symbolLabels = .ok labels) {m : Nat} :
    m ∈ readers (labels.map Prod.snd) c ↔
      ∃ a l, t.symbols[m]? = some a ∧ Label.ofText a = .ok l ∧ l.reads c = true :=
  mem_positions_iff h

theorem wellFormed_of_symbolLabels (h : t.symbolLabels = .ok labels)
    (hl : l ∈ labels.map Prod.snd) : l.WellFormed := by
  obtain ⟨m, hm⟩ := List.mem_iff_getElem?.1 hl
  obtain ⟨a, -, ha⟩ := (getElem?_symbolLabels h).1 hm
  exact Label.wellFormed_of_ofText ha

theorem wellFormed_of_mem_classesOf (h : t.symbolLabels = .ok labels)
    (hk : k ∈ classesOf labels) : k.label.WellFormed :=
  wellFormed_of_mem_partition (fun _ hl => wellFormed_of_symbolLabels h hl) hk

/-- The name of a class reads as a label that reads what the class does. -/
theorem ofText_className (h : t.symbolLabels = .ok labels) (hk : k ∈ classesOf labels) :
    Label.ofText (t.className k.label) = .ok (t.classLabel k.label) := by
  rw [className_eq]
  exact Label.ofText_text (wellFormed_classLabel (wellFormed_of_mem_classesOf h hk))

/-- Classes of one name are the same. -/
theorem eq_of_className_eq (h : t.symbolLabels = .ok labels) {k' : CharClass}
    (hk : k ∈ classesOf labels) (hk' : k' ∈ classesOf labels)
    (hname : t.className k'.label = t.className k.label) : k' = k := by
  have hlabel : t.classLabel k'.label = t.classLabel k.label := by
    have := ofText_className h hk'
    rw [hname, ofText_className h hk] at this
    exact (Except.ok.inj this).symm
  refine eq_of_reads_eq hk hk' ?_ fun c => ?_
  · rw [← isCofinite_classLabel (t := t), hlabel, isCofinite_classLabel]
  · rw [← reads_classLabel (t := t), hlabel, reads_classLabel]

theorem className_literal_ne_marker (hplain : ∀ lo hi, t.classLabel (.literal c) ≠ .range lo hi) :
    t.className (.literal c) ≠ t.marker := by
  unfold classLabel at hplain
  unfold className
  dsimp only at hplain ⊢
  split
  · rename_i hmarker
    rw [if_pos hmarker] at hplain
    exact absurd rfl (hplain c c)
  · rename_i hmarker
    exact fun hname => hmarker (decide_eq_true hname)

/-- A column for any character is not the marker. -/
theorem text_any_ne_marker (h : t.symbolLabels = .ok labels)
    (hl : Label.any ∈ labels.map Prod.snd) : Label.any.text ≠ t.marker := by
  obtain ⟨m, hm⟩ := List.mem_iff_getElem?.1 hl
  obtain ⟨a, ha, hread⟩ := (getElem?_symbolLabels h).1 hm
  have htext : Label.any.text = a := Label.text_of_ofText hread (by simp)
  rw [htext]
  rintro rfl
  exact marker_not_mem_symbols t (List.mem_of_getElem? ha)

/-- No class is named like the marker. -/
theorem className_ne_marker (h : t.symbolLabels = .ok labels) (hm : t.PlainMarker)
    (hk : k ∈ classesOf labels) : t.className k.label ≠ t.marker := by
  intro hname
  have hread := ofText_className h hk
  rw [hname] at hread
  obtain ⟨hrange, hnoneOf⟩ := hm _ hread
  rcases mem_finite_or_cofinite hk with ⟨b, -, rfl⟩ | hcof
  · -- a literal that is written like the marker is named by a range
    dsimp only [intervalLabel] at hname hrange
    split at hname
    · rename_i hlit
      rw [if_pos hlit] at hrange
      exact className_literal_ne_marker hrange hname
    · rename_i hlit
      rw [if_neg hlit] at hrange
      exact hrange _ _ rfl
  · rcases label_of_mem_cofinite hcof with ⟨he, hregion, l, hl, hcofinite⟩ | ⟨he, -⟩
    · -- without intervals there is a column for any character, which is not the marker
      have hany := eq_any_of_isCofinite (wellFormed_of_symbolLabels h hl) hcofinite
        (List.flatMap_eq_nil_iff.1 hregion l hl)
      rw [he] at hname
      exact text_any_ne_marker h (hany ▸ hl) hname
    · rw [he] at hnoneOf
      exact hnoneOf _ rfl

/-! ## Entries -/

/-- What follows a state under any of the columns of a class. -/
def FollowsClass (t : Table) (k : CharClass) (i j : Nat) : Prop :=
  ∃ m ∈ k.members, ∃ a, t.symbols[m]? = some a ∧ t.Follows i a j

/-- A character is read under a column exactly where it is read under that of a class. -/
theorem reads_iff_followsClass (h : t.symbolLabels = .ok labels) :
    t.Reads i c j ↔ ∃ k ∈ classesOf labels, k.label.reads c = true ∧ t.FollowsClass k i j := by
  constructor
  · rintro ⟨a, ha, l, hl, hlc, hf⟩
    obtain ⟨m, hm⟩ := List.mem_iff_getElem?.1 ha
    have hmr : m ∈ readers (labels.map Prod.snd) c := (mem_readers_iff h).2 ⟨a, l, hm, hl, hlc⟩
    have hne : (readers (labels.map Prod.snd) c).isEmpty = false :=
      Bool.eq_false_iff.2 fun he => OrderedSet.isEmpty_eq_true_iff.1 he m hmr
    obtain ⟨k, hk, hkc⟩ := exists_reads hne
    exact ⟨k, hk, hkc, m, (of_reads hk hkc).1 ▸ hmr, a, hm, hf⟩
  · rintro ⟨k, hk, hkc, m, hm, a, ha, hf⟩
    rw [(of_reads hk hkc).1, mem_readers_iff h] at hm
    obtain ⟨a', l, ha', hl, hlc⟩ := hm
    cases ha.symm.trans ha'
    exact ⟨a, List.mem_of_getElem? ha, l, hl, hlc, hf⟩

/-- What follows in a column that is named by a class. -/
def FollowsNamed (t : Table) (labels : List (String × Label)) (i : Nat) (symbol : String)
    (j : Nat) : Prop :=
  ∃ k ∈ classesOf labels, symbol = t.className k.label ∧ t.FollowsClass k i j

/-- What follows in the columns of the classes and of the marker. The moves without reading are
stored last, so of a class that is named like the marker they leave nothing. -/
def RefinedFollows (t : Table) (labels : List (String × Label)) (i : Nat) (symbol : String)
    (j : Nat) : Prop :=
  symbol = t.marker ∧ t.Follows i t.marker j ∨
    (symbol = t.marker → ∀ j', ¬ t.Follows i t.marker j') ∧ t.FollowsNamed labels i symbol j

theorem FollowsClass.lt (h : t.FollowsClass k i j) : i < t.size ∧ j < t.size := by
  obtain ⟨m, -, a, -, hf⟩ := h
  exact hf.lt

theorem RefinedFollows.lt (h : t.RefinedFollows labels i symbol j) : i < t.size ∧ j < t.size := by
  rcases h with ⟨-, hf⟩ | ⟨-, k, -, -, hf⟩
  · exact hf.lt
  · exact hf.lt

theorem followsNamed_className (h : t.symbolLabels = .ok labels) (hk : k ∈ classesOf labels) :
    t.FollowsNamed labels i (t.className k.label) j ↔ t.FollowsClass k i j := by
  refine ⟨?_, fun hf => ⟨k, hk, rfl, hf⟩⟩
  rintro ⟨k', hk', hname, hf⟩
  rwa [eq_of_className_eq h hk' hk hname]

theorem refinedFollows_iff_followsNamed
    (hnone : symbol = t.marker → ∀ j', ¬ t.Follows i t.marker j') :
    t.RefinedFollows labels i symbol j ↔ t.FollowsNamed labels i symbol j := by
  refine ⟨?_, fun hf => .inr ⟨hnone, hf⟩⟩
  rintro (⟨hs, hf⟩ | ⟨-, hf⟩)
  · exact absurd hf (hnone hs j)
  · exact hf

theorem refinedFollows_marker_iff {j' : Nat} (hf : t.Follows i t.marker j') :
    t.RefinedFollows labels i t.marker j ↔ t.Follows i t.marker j := by
  refine ⟨?_, fun hf => .inl ⟨rfl, hf⟩⟩
  rintro (⟨-, hf⟩ | ⟨hnone, -⟩)
  · exact hf
  · exact absurd hf (hnone rfl j')

/-- What follows in the column of a class is found. -/
theorem Valid.finds_targetsIn (hv : t.Valid) (h : t.symbolLabels = .ok labels)
    (hk : k ∈ classesOf labels) (hi : i < t.size) :
    Finds (t.targetsIn t.symbols i k.members) (t.FollowsClass k i) := by
  have hentry : ∀ m ∈ k.members.toList, ∃ a, t.symbols[m]? = some a := by
    intro m hm
    have hlt := lt_of_mem_members hk hm
    rw [length_symbolLabels h] at hlt
    exact ⟨_, List.getElem?_eq_getElem hlt⟩
  refine finds_gather fun m hm => ?_
  obtain ⟨a, ha⟩ := hentry m hm
  refine finds_bind (entry_eq_ok_iff.2 ha) ((hv.finds_targetIndices hi _).congr fun j => ?_)
  constructor
  · exact fun hf => ⟨a, ha, hf⟩
  · rintro ⟨a', ha', hf⟩
    cases ha.symm.trans ha'
    exact hf

/-- An entry of a state holds what follows it in the column of a class. -/
structure CellOf (t : Table) (i : Nat) (p : String) (k : CharClass) (c : Cell) : Prop where
  state : c.state = p
  symbol : c.symbol = t.className k.label
  targets : ∀ q, q ∈ c.targets ↔ ∃ j, t.FollowsClass k i j ∧ t.states[j]? = some q

theorem Valid.exists_classCell (hv : t.Valid) (h : t.symbolLabels = .ok labels)
    (hk : k ∈ classesOf labels) (hp : t.states[i]? = some p) :
    ∃ c, t.classCell t.symbols (p, i) k = .ok c ∧ t.CellOf i p k c := by
  obtain ⟨s, hs, hmem⟩ := hv.finds_targetsIn h hk (List.getElem?_eq_some_iff.1 hp).1
  have hlt : ∀ j ∈ s, j < t.states.length := fun j hj => ((hmem j).1 hj).lt.2
  obtain ⟨ts, hts, hnames⟩ := exists_mapM_entry hlt
  refine ⟨⟨p, t.className k.label, ts⟩, ?_, rfl, rfl, fun q => ?_⟩
  · rw [classCell, hs]
    change (t.namesAt s >>= _) = _
    rw [namesAt, hts]
    rfl
  · simp only [hnames, hmem]

/-- The entry of a state in the column of the marker. -/
def markerCell (t : Table) (p : String) : Cell := ⟨p, t.marker, t.targets p t.marker⟩

/-- The columns of the refined table. They are opened by the lemmas below only, as comparing tables
would compute them. -/
@[irreducible] def refinedAlphabet (t : Table) (labels : List (String × Label)) : List String :=
  (classesOf labels).map (t.className ·.label)
    ++ if t.alphabet.any t.isMarker then [t.marker] else []

/-- The refined table before its moves are stored. -/
def refinedBase (t : Table) (labels : List (String × Label)) : Table :=
  { ofStates t.states (t.refinedAlphabet labels) t.marker with
    starts := t.starts, finals := t.finals }

@[simp] theorem states_refinedBase : (t.refinedBase labels).states = t.states := rfl

@[simp] theorem alphabet_refinedBase :
    (t.refinedBase labels).alphabet = t.refinedAlphabet labels := rfl

@[simp] theorem marker_refinedBase : (t.refinedBase labels).marker = t.marker := rfl

theorem className_mem_refinedAlphabet (hk : k ∈ classesOf labels) :
    t.className k.label ∈ t.refinedAlphabet labels := by
  unfold refinedAlphabet
  exact List.mem_append_left _ (List.mem_map.2 ⟨k, hk, rfl⟩)

theorem marker_mem_refinedAlphabet (hm : t.marker ∈ t.alphabet) :
    t.marker ∈ t.refinedAlphabet labels := by
  unfold refinedAlphabet
  refine List.mem_append_right _ ?_
  rw [if_pos (List.any_eq_true.2 ⟨_, hm, decide_eq_true rfl⟩)]
  exact List.mem_cons_self

theorem mem_symbols_refinedBase : symbol ∈ (t.refinedBase labels).symbols ↔
    ∃ k ∈ classesOf labels, symbol = t.className k.label ∧ symbol ≠ t.marker := by
  rw [mem_symbols_iff, alphabet_refinedBase, marker_refinedBase]
  constructor
  · rintro ⟨hs, hne⟩
    unfold refinedAlphabet at hs
    rcases List.mem_append.1 hs with hs | hs
    · obtain ⟨k, hk, rfl⟩ := List.mem_map.1 hs
      exact ⟨k, hk, rfl, hne⟩
    · split at hs
      · exact absurd (List.mem_singleton.1 hs) hne
      · cases hs
  · rintro ⟨k, hk, rfl, hne⟩
    exact ⟨className_mem_refinedAlphabet hk, hne⟩

/-- The entries of a state lead from it to states, in columns of the refined table, and storing
them stores what follows it. -/
structure RowCells (t : Table) (labels : List (String × Label)) (i : Nat) (p : String)
    (row : List Cell) : Prop where
  state : ∀ c ∈ row, c.state = p
  declared : (t.refinedBase labels).Declared row
  targets : ∀ symbol q, q ∈ ((t.refinedBase labels).store row).targets p symbol ↔
    ∃ j, t.RefinedFollows labels i symbol j ∧ t.states[j]? = some q

section Row

variable {cells : List Cell}

theorem mem_targets_classCells (h : t.symbolLabels = .ok labels)
    (hall : List.Forall₂ (t.CellOf i p) (classesOf labels) cells) {q : String} :
    q ∈ ((t.refinedBase labels).store (cells.filter fun c => !c.targets.isEmpty)).targets p symbol
      ↔ ∃ j, t.FollowsNamed labels i symbol j ∧ t.states[j]? = some q := by
  refine (mem_targets_store_iff (F := t.FollowsNamed labels i) rfl (fun c hc _ q => ?_)
    fun a j hf => ?_).trans (by rw [states_refinedBase])
  · obtain ⟨k, hk, hcell⟩ := forall₂_mem_right hall (List.mem_filter.1 hc).1
    simp only [states_refinedBase, hcell.targets, hcell.symbol, followsNamed_className h hk]
  · -- what follows is named in the entry, which is thus not left out
    obtain ⟨k, hk, rfl, hf⟩ := hf
    obtain ⟨c, hc, hcell⟩ := forall₂_mem_left hall hk
    have hq := (hcell.targets _).2 ⟨j, hf, List.getElem?_eq_getElem hf.lt.2⟩
    refine ⟨c, List.mem_filter.2 ⟨hc, ?_⟩, hcell.state, hcell.symbol⟩
    simpa using List.ne_nil_of_mem hq

/-- The entry of the marker is stored over any entry of the same name. -/
theorem Valid.mem_targets_row (hv : t.Valid) (h : t.symbolLabels = .ok labels)
    (hp : t.states[i]? = some p) (hall : List.Forall₂ (t.CellOf i p) (classesOf labels) cells)
    {q : String} :
    q ∈ ((t.refinedBase labels).store
        ((cells ++ [t.markerCell p]).filter fun c => !c.targets.isEmpty)).targets p symbol ↔
      ∃ j, t.RefinedFollows labels i symbol j ∧ t.states[j]? = some q := by
  rw [List.filter_append, store_append]
  by_cases hnil : t.targets p t.marker = []
  · have hkept : [t.markerCell p].filter (fun c => !c.targets.isEmpty) = [] := by
      simp [markerCell, hnil]
    have hnone := (hv.targets_eq_nil_iff hp).1 hnil
    rw [hkept]
    simp only [refinedFollows_iff_followsNamed fun _ => hnone]
    exact mem_targets_classCells h hall
  · have hkept : [t.markerCell p].filter (fun c => !c.targets.isEmpty) = [t.markerCell p] := by
      simp [markerCell, hnil]
    obtain ⟨j', hf⟩ : ∃ j', t.Follows i t.marker j' := by
      by_contra hnone
      exact hnil ((hv.targets_eq_nil_iff hp).2 fun j hf => hnone ⟨j, hf⟩)
    rw [hkept]
    change q ∈ (Table.setTargets _ p t.marker (t.targets p t.marker)).targets p symbol ↔ _
    rw [targets_setTargets]
    by_cases hs : symbol = t.marker
    · rw [if_pos ⟨rfl, hs⟩, hs]
      simp only [refinedFollows_marker_iff hf]
      exact hv.mem_targets_iff_follows hp
    · rw [if_neg fun h => hs h.2]
      simp only [refinedFollows_iff_followsNamed fun he => absurd he hs]
      exact mem_targets_classCells h hall

end Row

theorem Valid.exists_classCells (hv : t.Valid) (h : t.symbolLabels = .ok labels)
    (hp : t.states[i]? = some p) :
    ∃ row, t.classCells t.symbols (classesOf labels) (p, i) = .ok row ∧
      t.RowCells labels i p row := by
  obtain ⟨cells, hcells, hall⟩ := exists_mapM_of fun k hk => hv.exists_classCell h hk hp
  have hstate := List.mem_of_getElem? hp
  refine ⟨(cells ++ [t.markerCell p]).filter (fun c => !c.targets.isEmpty),
    by rw [classCells, hcells]; rfl, fun c hc => ?_, fun c hc => ?_,
    fun symbol q => hv.mem_targets_row h hp hall⟩
  · rcases List.mem_append.1 (List.mem_filter.1 hc).1 with hc | hc
    · obtain ⟨k, -, hcell⟩ := forall₂_mem_right hall hc
      exact hcell.state
    · rw [List.mem_singleton.1 hc]
      rfl
  · obtain ⟨hc, hne⟩ := List.mem_filter.1 hc
    rcases List.mem_append.1 hc with hc | hc
    · obtain ⟨k, hk, hcell⟩ := forall₂_mem_right hall hc
      refine ⟨hcell.state ▸ hstate, hcell.symbol ▸ className_mem_refinedAlphabet hk, fun q hq => ?_⟩
      obtain ⟨j, -, hj⟩ := (hcell.targets q).1 hq
      exact List.mem_of_getElem? hj
    · rw [List.mem_singleton.1 hc] at hne ⊢
      obtain ⟨q, hq⟩ := List.exists_mem_of_ne_nil _ (by simpa using hne)
      exact ⟨hstate, marker_mem_refinedAlphabet (hv.of_mem_targets hq).2.1,
        fun q hq => (hv.of_mem_targets hq).2.2⟩

/-! ## The refined table -/

section Rows

variable {rows : List (List Cell)}

/-- The entries of all states, row by row. -/
abbrev Rows (t : Table) (labels : List (String × Label)) (rows : List (List Cell)) : Prop :=
  List.Forall₂ (fun s row => t.classCells t.symbols (classesOf labels) s = .ok row ∧
    t.RowCells labels s.2 s.1 row) t.states.zipIdx rows

theorem row_of_mem (hrows : t.Rows labels rows) {row : List Cell} (hrow : row ∈ rows) :
    ∃ i p, t.states[i]? = some p ∧ t.classCells t.symbols (classesOf labels) (p, i) = .ok row ∧
      t.RowCells labels i p row := by
  obtain ⟨⟨p, i⟩, hs, hrow⟩ := forall₂_mem_right hrows hrow
  exact ⟨i, p, List.mem_zipIdx_iff_getElem?.1 hs, hrow⟩

theorem Valid.mem_targets_refined (hv : t.Valid) (hrows : t.Rows labels rows)
    (hp : t.states[i]? = some p) {q : String} :
    q ∈ ((t.refinedBase labels).store rows.flatten).targets p symbol ↔
      ∃ j, t.RefinedFollows labels i symbol j ∧ t.states[j]? = some q := by
  obtain ⟨row, hmem, hok, hrow⟩ :=
    forall₂_mem_left hrows (List.mem_zipIdx_iff_getElem?.2 hp : (p, i) ∈ _)
  rw [targets_store_flatten hmem]
  · exact hrow.targets symbol q
  · -- the entries of another row are those of another state
    rintro row' hmem' hne c hc rfl
    obtain ⟨i', p', hp', hok', hrow'⟩ := row_of_mem hrows hmem'
    obtain rfl := hrow'.state c hc
    obtain rfl := getElem?_states_inj hv.nodup hp hp'
    cases hok.symm.trans hok'
    exact hne rfl

theorem Valid.follows_refined (hv : t.Valid) (hrows : t.Rows labels rows) :
    ((t.refinedBase labels).store rows.flatten).Follows i symbol j ↔
      t.RefinedFollows labels i symbol j := by
  refine follows_iff_of_mem_targets (by rw [states_store]; exact hv.nodup) (fun j hf => ?_)
    fun p q hp => ?_
  · rw [size, states_store]
    exact hf.lt
  · rw [states_store] at hp ⊢
    exact hv.mem_targets_refined hrows hp

theorem Valid.refinedBase (hv : t.Valid) : (t.refinedBase labels).Valid :=
  ⟨hv.nodup, hv.starts_lt, hv.finals_lt, List.forall_mem_nil _, List.forall_mem_nil _,
    List.forall_mem_nil _⟩

theorem Valid.valid_refined (hv : t.Valid) (hrows : t.Rows labels rows) :
    ((t.refinedBase labels).store rows.flatten).Valid := by
  refine hv.refinedBase.store fun c hc => ?_
  obtain ⟨row, hmem, hc⟩ := List.mem_flatten.1 hc
  obtain ⟨i, p, -, -, hrow⟩ := row_of_mem hrows hmem
  exact hrow.declared c hc

end Rows

/-! ## Moves in split columns -/

/-- A class whose column is named like the marker, where the columns are split into classes. -/
def Marked (t : Table) (k : CharClass) : Prop :=
  t.className k.label = t.marker ∧ ∃ labels, t.symbolLabels = .ok labels ∧ k ∈ classesOf labels ∧
    ∃ k' ∈ classesOf labels, k'.members.size ≠ 1

/-- What follows a state without reading once the columns are split: what did so before, or from a
state that did not move without reading, what follows it in the columns of a marked class. -/
def SplitFollows (t : Table) (i j : Nat) : Prop :=
  t.Follows i t.marker j ∨
    (∀ j', ¬ t.Follows i t.marker j') ∧ ∃ k, t.Marked k ∧ t.FollowsClass k i j

/-- What follows a state by reading a character once the columns are split: what did so before, but
no character of a marked class is read any more. -/
def SplitReads (t : Table) (i : Nat) (c : Char) (j : Nat) : Prop :=
  t.Reads i c j ∧ ∀ k, t.Marked k → k.label.reads c = false

/-- The moves of a table once its columns are split. -/
def splitArrows (t : Table) : Arrows := fun i u j =>
  u = [] ∧ t.SplitFollows i j ∨ ∃ c, u = [c] ∧ t.SplitReads i c j

theorem Marked.mem (hk : t.Marked k) (h : t.symbolLabels = .ok labels) : k ∈ classesOf labels := by
  obtain ⟨-, labels', h', hk, -⟩ := hk
  cases h.symm.trans h'
  exact hk

/-- The character of a move is read by the class that it follows. -/
theorem Marked.followsClass (hk : t.Marked k) (hr : t.Reads i c j) (hc : k.label.reads c = true) :
    t.FollowsClass k i j := by
  obtain ⟨-, labels, h, hk, -⟩ := hk
  obtain ⟨k', hk', hc', hf⟩ := (reads_iff_followsClass h).1 hr
  rwa [← (of_reads hk hc).2 k' hk' hc']

/-- Splitting the columns keeps the moves of a table where no marked class is followed. -/
theorem splitArrows_eq (hidle : ∀ k, t.Marked k → ∀ i j, ¬ t.FollowsClass k i j) :
    t.splitArrows = t.arrows := by
  have hfollows : ∀ i j, t.SplitFollows i j ↔ t.Follows i t.marker j := by
    refine fun i j => ⟨?_, .inl⟩
    rintro (hf | ⟨-, k, hk, hf⟩)
    · exact hf
    · exact absurd hf (hidle k hk i j)
  have hreads : ∀ i c j, t.SplitReads i c j ↔ t.Reads i c j := by
    refine fun i c j => ⟨And.left, fun hr => ⟨hr, fun k hk => ?_⟩⟩
    exact Bool.eq_false_iff.2 fun hc => hidle k hk i j (hk.followsClass hr hc)
  funext i u j
  simp only [splitArrows, arrows, hfollows, hreads]

/-- A table with the same states in disjoint columns that are labels, and the moves that splitting
the columns leaves. -/
structure Split (t r : Table) : Prop where
  valid : r.Valid
  disjoint : r.Disjoint
  labels : ∃ ls, r.symbolLabels = .ok ls
  states_eq : r.states = t.states
  starts_eq : r.starts = t.starts
  finals_eq : r.finals = t.finals
  marker_eq : r.marker = t.marker
  columns : ∀ a ∈ r.symbols, a ∈ t.symbols ∨
    ∃ labels, t.symbolLabels = .ok labels ∧ ∃ k ∈ classesOf labels, a = t.className k.label
  arrows_eq : r.arrows = t.splitArrows

/-- Classes with one member each are those of separate columns. -/
theorem separate_of_all_size (h : t.symbolLabels = .ok labels)
    (hsize : ∀ k ∈ classesOf labels, k.members.size = 1) : t.Separate := by
  intro m n a b hm hn l l' hl hl' c hlc hlc'
  have hmr : m ∈ readers (labels.map Prod.snd) c := (mem_readers_iff h).2 ⟨a, l, hm, hl, hlc⟩
  have hnr : n ∈ readers (labels.map Prod.snd) c := (mem_readers_iff h).2 ⟨b, l', hn, hl', hlc'⟩
  have hne : (readers (labels.map Prod.snd) c).isEmpty = false :=
    Bool.eq_false_iff.2 fun he => OrderedSet.isEmpty_eq_true_iff.1 he m hmr
  obtain ⟨k, hk, hkc⟩ := exists_reads hne
  obtain ⟨x, hx⟩ := OrderedSet.exists_eq_singleton (hsize k hk)
  rw [← (of_reads hk hkc).1, hx, OrderedSet.mem_singleton] at hmr hnr
  exact hmr.trans hnr.symm

/-- A table whose columns are classes already is split as it is. -/
theorem Valid.split_self (hv : t.Valid) (h : t.symbolLabels = .ok labels)
    (hsize : ∀ k ∈ classesOf labels, k.members.size = 1) : Split t t where
  valid := hv
  disjoint := (separate_of_all_size h hsize).disjoint
  labels := ⟨labels, h⟩
  states_eq := rfl
  starts_eq := rfl
  finals_eq := rfl
  marker_eq := rfl
  columns _ ha := .inl ha
  arrows_eq := by
    refine (splitArrows_eq ?_).symm
    rintro k ⟨-, labels', h', -, k', hk', hne⟩
    cases h.symm.trans h'
    exact absurd (hsize k' hk') hne

section Rows

variable {rows : List (List Cell)}

theorem Valid.reads_refined (hv : t.Valid) (h : t.symbolLabels = .ok labels)
    (hrows : t.Rows labels rows) :
    ((t.refinedBase labels).store rows.flatten).Reads i c j ↔ ∃ k ∈ classesOf labels,
      t.className k.label ≠ t.marker ∧ k.label.reads c = true ∧ t.FollowsClass k i j := by
  have hfollows : ∀ k ∈ classesOf labels, t.className k.label ≠ t.marker →
      (t.RefinedFollows labels i (t.className k.label) j ↔ t.FollowsClass k i j) := fun k hk hne =>
    (refinedFollows_iff_followsNamed fun he => absurd he hne).trans (followsNamed_className h hk)
  simp only [Reads, symbols_store, mem_symbols_refinedBase, hv.follows_refined hrows]
  constructor
  · rintro ⟨_, ⟨k, hk, rfl, hne⟩, l, hl, hlc, hf⟩
    cases (ofText_className h hk).symm.trans hl
    exact ⟨k, hk, hne, reads_classLabel.symm.trans hlc, (hfollows k hk hne).1 hf⟩
  · rintro ⟨k, hk, hne, hkc, hf⟩
    exact ⟨_, ⟨k, hk, rfl, hne⟩, _, ofText_className h hk, reads_classLabel.trans hkc,
      (hfollows k hk hne).2 hf⟩

/-- What a table is like after the entries of all states are stored. -/
theorem Valid.split_store (hv : t.Valid) (h : t.symbolLabels = .ok labels)
    (hsplit : ∃ k ∈ classesOf labels, k.members.size ≠ 1) (hrows : t.Rows labels rows) :
    Split t ((t.refinedBase labels).store rows.flatten) where
  valid := hv.valid_refined hrows
  disjoint := by
    intro a ha b hb l m hl hm' c hlc hmc
    rw [symbols_store, mem_symbols_refinedBase] at ha hb
    obtain ⟨k, hk, rfl, -⟩ := ha
    obtain ⟨k', hk', rfl, -⟩ := hb
    cases (ofText_className h hk).symm.trans hl
    cases (ofText_className h hk').symm.trans hm'
    rw [reads_classLabel] at hlc hmc
    rw [(of_reads hk hlc).2 k' hk' hmc]
  labels := by
    refine exists_symbolLabels fun s hs => ?_
    rw [symbols_store, mem_symbols_refinedBase] at hs
    obtain ⟨k, hk, rfl, -⟩ := hs
    exact ⟨_, ofText_className h hk⟩
  states_eq := states_store _ _
  starts_eq := starts_store _ _
  finals_eq := finals_store _ _
  marker_eq := marker_store _ _
  columns := by
    intro a ha
    rw [symbols_store, mem_symbols_refinedBase] at ha
    obtain ⟨k, hk, hname, -⟩ := ha
    exact .inr ⟨labels, h, k, hk, hname⟩
  arrows_eq := by
    have hmarked : ∀ k ∈ classesOf labels, t.className k.label = t.marker → t.Marked k :=
      fun k hk hname => ⟨hname, labels, h, hk, hsplit⟩
    have hfollows : ∀ i j, t.RefinedFollows labels i t.marker j ↔ t.SplitFollows i j := by
      refine fun i j => or_congr (and_iff_right rfl) (and_congr (forall_prop_of_true rfl) ?_)
      constructor
      · rintro ⟨k, hk, hname, hf⟩
        exact ⟨k, hmarked k hk hname.symm, hf⟩
      · rintro ⟨k, hk, hf⟩
        exact ⟨k, hk.mem h, hk.1.symm, hf⟩
    have hreads : ∀ i c j, ((t.refinedBase labels).store rows.flatten).Reads i c j ↔
        t.SplitReads i c j := by
      intro i c j
      rw [hv.reads_refined h hrows, SplitReads, reads_iff_followsClass h]
      constructor
      · rintro ⟨k, hk, hne, hkc, hf⟩
        refine ⟨⟨k, hk, hkc, hf⟩, fun k' hk' => Bool.eq_false_iff.2 fun hc => hne ?_⟩
        rw [(of_reads (hk'.mem h) hc).2 k hk hkc]
        exact hk'.1
      · rintro ⟨⟨k, hk, hkc, hf⟩, hkept⟩
        refine ⟨k, hk, fun hname => ?_, hkc, hf⟩
        exact Bool.eq_false_iff.1 (hkept k (hmarked k hk hname)) hkc
    have hmarker : ((t.refinedBase labels).store rows.flatten).marker = t.marker :=
      marker_store _ _
    funext i u j
    simp only [arrows, splitArrows, hmarker, hv.follows_refined hrows, hfollows, hreads]

end Rows

/-- A table whose columns are not all labels is left as it is. -/
theorem Valid.refine_of_symbolLabels (hv : t.Valid) {e : Error} (he : t.symbolLabels = .error e) :
    t.refine = .ok t := by
  rw [refine, validate_eq_ok_iff.2 hv, he]
  rfl

/-- Refining leaves a table as it is where each class has one member, and else stores the entries of
all states in the columns of the classes. -/
theorem Valid.refine_cases (hv : t.Valid) (h : t.symbolLabels = .ok labels) :
    (∀ k ∈ classesOf labels, k.members.size = 1) ∧ t.refine = .ok t ∨
      (∃ k ∈ classesOf labels, k.members.size ≠ 1) ∧ ∃ rows, t.Rows labels rows ∧
        t.refine = .ok ((t.refinedBase labels).store rows.flatten) := by
  have hrow : ∀ s ∈ t.states.zipIdx, ∃ row,
      t.classCells t.symbols (classesOf labels) s = .ok row ∧
        t.classCells t.symbols (classesOf labels) s = .ok row ∧ t.RowCells labels s.2 s.1 row :=
    fun s hs => (hv.exists_classCells h (List.mem_zipIdx_iff_getElem?.1 hs)).imp fun _ hrow =>
      ⟨hrow.1, hrow⟩
  obtain ⟨rows, hrows, hall⟩ := exists_mapM_of hrow
  have hunfold : t.refine = if (classesOf labels).all (·.members.size = 1) then .ok t
      else .ok ((t.refinedBase labels).store rows.flatten) := by
    rw [refine, validate_eq_ok_iff.2 hv, h]
    change (if _ then _ else _) = _
    rw [hrows, Table.refinedBase, refinedAlphabet]
    rfl
  rw [hunfold]
  by_cases hsize : ∀ k ∈ classesOf labels, k.members.size = 1
  · exact .inl ⟨hsize, if_pos (List.all_eq_true.2 fun k hk => decide_eq_true (hsize k hk))⟩
  · refine .inr ⟨by simpa using hsize, rows, hall, if_neg fun hall => hsize fun k hk => ?_⟩
    exact of_decide_eq_true (List.all_eq_true.1 hall k hk)

/-- Refining a table splits its columns. -/
theorem Valid.exists_split (hv : t.Valid) (h : t.symbolLabels = .ok labels) :
    ∃ r, t.refine = .ok r ∧ Split t r := by
  rcases hv.refine_cases h with ⟨hsize, hr⟩ | ⟨hsplit, rows, hrows, hr⟩
  · exact ⟨t, hr, hv.split_self h hsize⟩
  · exact ⟨_, hr, hv.split_store h hsplit hrows⟩

/-! ## Markers that name no class -/

/-- A table with the same states and moves, in disjoint columns that are labels. -/
structure Refined (t r : Table) : Prop where
  valid : r.Valid
  disjoint : r.Disjoint
  labels : ∃ ls, r.symbolLabels = .ok ls
  states_eq : r.states = t.states
  starts_eq : r.starts = t.starts
  finals_eq : r.finals = t.finals
  arrows_eq : r.arrows = t.arrows

theorem Refined.language_eq {r : Table} (h : Refined t r) : r.language = t.language := by
  have hinitial : r.initial = t.initial := by rw [initial, initial, h.starts_eq]
  rw [language, language, hinitial, h.finals_eq, h.arrows_eq]

theorem Split.refined {r : Table} (h : Split t r)
    (hidle : ∀ k, t.Marked k → ∀ i j, ¬ t.FollowsClass k i j) : Refined t r :=
  ⟨h.valid, h.disjoint, h.labels, h.states_eq, h.starts_eq, h.finals_eq,
    h.arrows_eq.trans (splitArrows_eq hidle)⟩

/-- Refining a table succeeds, and makes its columns disjoint without changing its moves. -/
theorem Valid.exists_refine (hv : t.Valid) (h : t.symbolLabels = .ok labels) (hm : t.PlainMarker) :
    ∃ r, t.refine = .ok r ∧ Refined t r := by
  obtain ⟨r, hr, hsplit⟩ := hv.exists_split h
  exact ⟨r, hr, hsplit.refined fun k hk => absurd hk.1 (className_ne_marker h hm (hk.mem h))⟩

end Acceptor.Table
