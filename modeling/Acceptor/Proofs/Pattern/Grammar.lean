/-
The grammar of expressions, said of the nesting of a run alone: in the run itself and inside every
group in it, each alternative is something and does not begin with an operator. Main statements: a
run keeps to the grammar exactly where all that it is taken apart into does
(`Reading.grammatical_iff`), and a run for which no rule is found breaks it (`fault_of_ofPattern`).
-/
import Acceptor.Proofs.Pattern.Reading

namespace Acceptor

variable {p q x y inner first : Pattern} {others : List Pattern} {d : Decomposition}
  {cause : SyntaxError}

namespace Pattern

/-! ## Groups in a run -/

/-- A group in a run, at any depth, has this inside. -/
def Encloses (p inner : Pattern) : Prop :=
  inner.Balanced ∧ ∃ before after, p = before ++ grouped inner ++ after

theorem not_encloses_of_length (h : p.length < 2) : ¬ p.Encloses inner := by
  rintro ⟨-, before, after, rfl⟩
  simp only [grouped, List.length_append, List.length_cons] at h
  omega

theorem not_encloses_singleton (t : Token) : ¬ Encloses [t] inner :=
  not_encloses_of_length Nat.one_lt_two

theorem Encloses.append_right (h : x.Encloses inner) (y : Pattern) : (x ++ y).Encloses inner := by
  obtain ⟨hb, before, after, rfl⟩ := h
  exact ⟨hb, before, after ++ y, by simp⟩

theorem Encloses.append_left (h : y.Encloses inner) (x : Pattern) : (x ++ y).Encloses inner := by
  obtain ⟨hb, before, after, rfl⟩ := h
  exact ⟨hb, x ++ before, after, by simp⟩

/-- A group is still open where it is cut off. -/
theorem Balanced.not_balanced_cut (hb : inner.Balanced) {before z v : Pattern} (hz : z ≠ [])
    (hv : v ≠ []) (h : Pattern.grouped inner = z ++ v) : ¬ Balanced (before ++ z) := by
  intro hbal
  obtain ⟨t, z, rfl⟩ := List.exists_cons_of_ne_nil hz
  obtain ⟨rfl, htail⟩ := List.cons.inj h
  -- what was read of the inside is the start of it
  obtain ⟨w, rfl⟩ : ∃ w, inner = z ++ w := by
    obtain ⟨w, rfl, hw⟩ | ⟨w, rfl, -⟩ := List.append_eq_append_iff.1 htail
    · cases w with
      | nil => exact ⟨[], by simp⟩
      | cons s w =>
        obtain ⟨-, hnil⟩ := List.cons.inj hw
        exact absurd (List.append_eq_nil_iff.1 hnil.symm).2 hv
    · exact ⟨w, rfl⟩
  rw [Balanced, depth?_append] at hbal hb
  obtain ⟨d, -, hbal⟩ := Option.bind_eq_some_iff.1 hbal
  obtain ⟨e, he, -⟩ := Option.bind_eq_some_iff.1 hb
  have := Pattern.depth?_add he (d + 1)
  rw [Nat.zero_add] at this
  change Pattern.depth? (d + 1) z = some 0 at hbal
  rw [this] at hbal
  cases hbal

/-- A group does not reach beyond a balanced run. -/
theorem encloses_append_iff (hx : x.Balanced) :
    (x ++ y).Encloses inner ↔ x.Encloses inner ∨ y.Encloses inner := by
  refine ⟨?_, fun h => h.elim (·.append_right y) (·.append_left x)⟩
  rintro ⟨hb, before, after, h⟩
  rw [List.append_assoc] at h
  -- `z` is what the run has beyond the tokens before the group
  obtain ⟨z, -, rfl⟩ | ⟨z, rfl, hz⟩ := List.append_eq_append_iff.1 h
  · exact .inr ⟨hb, z, after, by simp⟩
  obtain ⟨v, rfl, -⟩ | ⟨v, hcut, rfl⟩ := List.append_eq_append_iff.1 hz
  · exact .inl ⟨hb, before, v, by simp⟩
  by_cases hz : z = []
  · subst hz
    exact .inr ⟨hb, [], after, by rw [hcut]; simp⟩
  by_cases hv : v = []
  · subst hv
    exact .inl ⟨hb, before, [], by rw [hcut]; simp⟩
  · exact absurd hx (hb.not_balanced_cut hz hv hcut)

/-- The groups in a group are the group itself and those inside it. -/
theorem encloses_grouped_iff (hq : q.Balanced) :
    (grouped q).Encloses inner ↔ inner = q ∨ q.Encloses inner := by
  constructor
  · rintro ⟨hb, before, after, h⟩
    cases before with
    | nil =>
      -- the `(` is closed by one `)` only
      have hsplit : q ++ [.groupClose] = inner ++ .groupClose :: after := by
        simpa [grouped] using h
      have h₁ : splitClose 0 (q ++ [.groupClose]) = some (q, []) :=
        splitClose_eq_some_iff.2 ⟨rfl, hq⟩
      have h₂ := splitClose_eq_some_iff.2 ⟨hsplit, hb⟩
      cases h₁.symm.trans h₂
      exact .inl rfl
    | cons t before =>
      obtain ⟨-, h⟩ := List.cons.inj h
      have hinside : Encloses (q ++ [.groupClose]) inner := ⟨hb, before, after, h⟩
      rcases (encloses_append_iff hq).1 hinside with h | h
      · exact .inr h
      · exact absurd h (not_encloses_singleton .groupClose)
  · rintro (rfl | h)
    · exact ⟨hq, [], [], by simp⟩
    · exact (h.append_left [.groupOpen]).append_right [.groupClose]

theorem encloses_joined_iff (h : ∀ q ∈ first :: others, q.Balanced) :
    (joined first others).Encloses inner ↔ ∃ q ∈ first :: others, q.Encloses inner := by
  induction others generalizing first with
  | nil => simp [joined]
  | cons second others ih =>
    obtain ⟨hf, hrest⟩ := List.forall_mem_cons.1 h
    have hjoined : joined first (second :: others) =
        first ++ ([.union] ++ joined second others) := by
      simp [joined]
    have hunion : Balanced [.union] := rfl
    rw [hjoined, encloses_append_iff hf, encloses_append_iff hunion, ih hrest,
      or_iff_right (not_encloses_singleton .union), List.exists_mem_cons_iff _ first]

theorem encloses_flatten_iff {ps : List Pattern} (h : ∀ q ∈ ps, q.Balanced) :
    Encloses ps.flatten inner ↔ ∃ q ∈ ps, q.Encloses inner := by
  induction ps with
  | nil => exact iff_of_false (not_encloses_of_length (p := []) Nat.two_pos) (by simp)
  | cons q ps ih =>
    obtain ⟨hq, hrest⟩ := List.forall_mem_cons.1 h
    rw [List.flatten_cons, encloses_append_iff hq, ih hrest, List.exists_mem_cons_iff]

/-! ## The grammar -/

/-- A run that is something and does not begin with an operator. -/
def Begins (p : Pattern) : Prop := p ≠ [] ∧ ∀ r, p.head? ≠ some (.repetition r)

/-- A run in which each alternative begins; nothing at all is such a run as well. There is only one
way to split a run at the `+` outside its groups. -/
def Formed (p : Pattern) : Prop :=
  p = [] ∨ ∃ first others, p = joined first others ∧
    ∀ q ∈ first :: others, (q.Balanced ∧ q.Flat) ∧ q.Begins

/-- A run that keeps to the grammar: it is formed, and so is the inside of every group in it. -/
structure Grammatical (p : Pattern) : Prop where
  formed : p.Formed
  inside : ∀ inner, p.Encloses inner → inner.Formed

theorem begins_cons {t : Token} {rest : Pattern} :
    Begins (t :: rest) ↔ t.isRepetition = false := by
  cases t <;> simp [Begins, Token.isRepetition]

theorem formed_nil : Formed [] := .inl rfl

/-- The alternatives of a run are those that it is split into. -/
theorem formed_joined_iff (h : ∀ q ∈ first :: others, q.Balanced ∧ q.Flat)
    (hne : joined first others ≠ []) :
    (joined first others).Formed ↔ ∀ q ∈ first :: others, q.Begins := by
  have hsplit : ∀ {f : Pattern} {os : List Pattern}, (∀ q ∈ f :: os, q.Balanced ∧ q.Flat) →
      splitUnion 0 (joined f os) = some (f, os) := by
    intro f os hparts
    exact splitUnion_joined (hparts f List.mem_cons_self)
      fun q hq => hparts q (List.mem_cons_of_mem f hq)
  constructor
  · rintro (hnil | ⟨f, os, he, hparts⟩)
    · exact absurd hnil hne
    · have h₁ := hsplit h
      rw [he, hsplit fun q hq => (hparts q hq).1] at h₁
      cases h₁
      exact fun q hq => (hparts q hq).2
  · intro hbegins
    exact .inr ⟨first, others, rfl, fun q hq => ⟨h q hq, hbegins q hq⟩⟩

/-- A run without a `+` outside groups is its only alternative. -/
theorem formed_iff_of_flat (hb : p.Balanced) (hf : p.Flat) (hne : p ≠ []) :
    p.Formed ↔ p.Begins := by
  have hjoined : joined p [] = p := by simp [joined]
  have h := formed_joined_iff (List.forall_mem_singleton.2 ⟨hb, hf⟩) (hjoined.symm ▸ hne)
  rwa [hjoined, List.forall_mem_singleton] at h

theorem flat_repetition (r : Repetition) : Balanced [.repetition r] ∧ Flat [.repetition r] :=
  ⟨rfl, flat_of_not_mem (by simp)⟩

theorem flat_atom (l : Label) : Balanced [.atom l] ∧ Flat [.atom l] :=
  IsUnit.flat (.inl ⟨l, rfl⟩)

theorem IsPiece.begins (h : p.IsPiece) : p.Begins := by
  obtain ⟨t, rest, rfl⟩ := List.exists_cons_of_ne_nil h.ne_nil
  exact begins_cons.2 h.cons

theorem begins_concat_iff {t : Token} (ht : t.isRepetition = true) :
    Begins (p ++ [t]) ↔ p.Begins := by
  cases p with
  | nil =>
    rw [List.nil_append, begins_cons, ht]
    exact iff_of_false nofun fun h => h.1 rfl
  | cons s p => rw [List.cons_append, begins_cons, begins_cons]

/-- A run without a `+` outside groups keeps to the grammar where it begins and the groups in it
are formed. -/
theorem grammatical_iff_of_flat (hb : p.Balanced) (hf : p.Flat) (hne : p ≠ []) :
    p.Grammatical ↔ p.Begins ∧ ∀ inner, p.Encloses inner → inner.Formed := by
  rw [← formed_iff_of_flat hb hf hne]
  exact ⟨fun h => ⟨h.formed, h.inside⟩, fun h => ⟨h.1, h.2⟩⟩

theorem grammatical_grouped_iff (hq : q.Balanced) : (grouped q).Grammatical ↔ q.Grammatical := by
  rw [grammatical_iff_of_flat hq.grouped hq.flat_grouped (by simp [grouped])]
  simp only [encloses_grouped_iff hq]
  constructor
  · rintro ⟨-, h⟩
    exact ⟨h q (.inl rfl), fun x hx => h x (.inr hx)⟩
  · intro h
    refine ⟨begins_cons.2 rfl, ?_⟩
    rintro x (rfl | hx)
    · exact h.formed
    · exact h.inside x hx

theorem grammatical_joined_iff (h : ∀ q ∈ first :: others, q.Balanced ∧ q.Flat)
    (ho : others ≠ []) : (joined first others).Grammatical ↔
      (∀ q ∈ first :: others, q ≠ []) ∧ ∀ q ∈ first :: others, q.Grammatical := by
  have hne : joined first others ≠ [] := by
    obtain ⟨second, rest, rfl⟩ := List.exists_cons_of_ne_nil ho
    simp [joined]
  have hencloses : ∀ x, (joined first others).Encloses x ↔ ∃ q ∈ first :: others, q.Encloses x :=
    fun x => encloses_joined_iff fun q hq => (h q hq).1
  constructor
  · intro hp
    have hbegins := (formed_joined_iff h hne).1 hp.formed
    refine ⟨fun q hq => (hbegins q hq).1, fun q hq => ?_⟩
    rw [grammatical_iff_of_flat (h q hq).1 (h q hq).2 (hbegins q hq).1]
    exact ⟨hbegins q hq, fun x hx => hp.inside x ((hencloses x).2 ⟨q, hq, hx⟩)⟩
  · rintro ⟨hfilled, hall⟩
    refine ⟨(formed_joined_iff h hne).2 fun q hq => ?_, fun x hx => ?_⟩
    · exact (formed_iff_of_flat (h q hq).1 (h q hq).2 (hfilled q hq)).1 (hall q hq).formed
    · obtain ⟨q, hq, hx⟩ := (hencloses x).1 hx
      exact (hall q hq).inside x hx

theorem grammatical_concat_iff {r : Repetition} (hb : p.Balanced) (hf : p.Flat) :
    (p ++ [Token.repetition r]).Grammatical ↔ p ≠ [] ∧ p.Grammatical := by
  have hops := flat_repetition r
  have hencloses : ∀ x, Encloses (p ++ [.repetition r]) x ↔ p.Encloses x :=
    fun x => (encloses_append_iff hb).trans (or_iff_left (not_encloses_singleton _))
  rw [grammatical_iff_of_flat (hb.append hops.1) (Flat.append hb hf hops.2) (by simp),
    begins_concat_iff rfl]
  simp only [hencloses]
  constructor
  · intro h
    exact ⟨h.1.1, (grammatical_iff_of_flat hb hf h.1.1).2 h⟩
  · rintro ⟨hne, h⟩
    exact (grammatical_iff_of_flat hb hf hne).1 h

theorem grammatical_flatten_iff {ps : List Pattern} (hlen : 2 ≤ ps.length)
    (h : ∀ q ∈ ps, q.IsPiece) : Grammatical ps.flatten ↔ ∀ q ∈ ps, q.Grammatical := by
  have hbalanced := fun q hq => (h q hq).balanced
  have hbegins : Begins ps.flatten := by
    obtain ⟨q, q', rest, rfl⟩ := exists_of_two_le_length hlen
    obtain ⟨t, tail, rfl⟩ := List.exists_cons_of_ne_nil (h q List.mem_cons_self).ne_nil
    exact begins_cons.2 (h _ List.mem_cons_self).cons
  rw [grammatical_iff_of_flat (balanced_flatten hbalanced) (flat_flatten h) hbegins.1,
    and_iff_right hbegins]
  simp only [encloses_flatten_iff hbalanced]
  constructor
  · intro hinside q hq
    have hpiece := h q hq
    rw [grammatical_iff_of_flat hpiece.balanced hpiece.flat hpiece.ne_nil]
    exact ⟨hpiece.begins, fun x hx => hinside x ⟨q, hq, hx⟩⟩
  · rintro hall x ⟨q, hq, hx⟩
    exact (hall q hq).inside x hx

theorem grammatical_nil : Grammatical [] :=
  ⟨formed_nil, fun _ h => absurd h (not_encloses_of_length (p := []) Nat.two_pos)⟩

theorem grammatical_atom (l : Label) : Grammatical [.atom l] := by
  obtain ⟨hb, hf⟩ := flat_atom l
  rw [grammatical_iff_of_flat hb hf (List.cons_ne_nil _ _)]
  exact ⟨begins_cons.2 rfl, fun _ h => absurd h (not_encloses_singleton _)⟩

end Pattern

open Pattern

/-! ## Taking apart a run that keeps to the grammar -/

/-- No alternative and no operand is nothing. -/
def Decomposition.Filled : Decomposition → Prop
  | union parts => ∀ q ∈ parts, q ≠ []
  | repetition _ operand => operand ≠ []
  | _ => True

/-- A run keeps to the grammar exactly where all that it is taken apart into does, and no part is
missing. -/
theorem Reading.grammatical_iff (h : Reading p d) :
    p.Grammatical ↔ d.Filled ∧ ∀ q ∈ d.parts, q.Grammatical := by
  cases h with
  | empty => simp [grammatical_nil, Decomposition.Filled, Decomposition.parts]
  | atom => simp [grammatical_atom, Decomposition.Filled, Decomposition.parts]
  | group hb =>
    simp [grammatical_grouped_iff hb, Decomposition.Filled, Decomposition.parts]
  | union ho hparts => exact grammatical_joined_iff hparts ho
  | repetition hb hf =>
    rw [grammatical_concat_iff hb hf]
    simp [Decomposition.Filled, Decomposition.parts]
  | chain hlen hpieces =>
    rw [grammatical_flatten_iff hlen hpieces]
    simp [Decomposition.Filled, Decomposition.parts]

/-! ## Runs that break the grammar -/

/-- The faults of a run that breaks the grammar. -/
inductive SyntaxError.OfGrammar : SyntaxError → Prop
  | emptyAlternative (text : String) : OfGrammar (.emptyAlternative text)
  | danglingOperator (operator : Char) : OfGrammar (.danglingOperator operator)

namespace Pattern

theorem balanced_flat_of_append (hx : x.Balanced) (hb : Balanced (x ++ y)) (hf : Flat (x ++ y)) :
    y.Balanced ∧ y.Flat := by
  constructor
  · rwa [Balanced, depth?_append_of_eq hx] at hb
  · rintro z w rfl hz
    exact hf (x ++ z) w (by simp) (hx.append hz)

/-- What is closed in the end is closed somewhere. -/
theorem exists_splitClose {depth : Nat} (h : depth? (depth + 1) p = some 0) :
    ∃ s, splitClose depth p = some s := by
  induction p generalizing depth with
  | nil => cases h
  | cons t rest ih =>
    obtain ⟨d, hd, h⟩ := Option.bind_eq_some_iff.1 h
    by_cases hclose : t = .groupClose ∧ depth = 0
    · obtain ⟨rfl, rfl⟩ := hclose
      exact ⟨_, rfl⟩
    · -- the groups around the run stay open past the token
      obtain ⟨e, he, rfl⟩ : ∃ e, t.depth? depth = some e ∧ d = e + 1 := by
        cases t with
        | groupClose =>
          cases depth with
          | zero => exact absurd ⟨rfl, rfl⟩ hclose
          | succ depth => cases hd; exact ⟨depth, rfl, rfl⟩
        | groupOpen => cases hd; exact ⟨_, rfl, rfl⟩
        | union => cases hd; exact ⟨_, rfl, rfl⟩
        | repetition => cases hd; exact ⟨_, rfl, rfl⟩
        | atom => cases hd; exact ⟨_, rfl, rfl⟩
      obtain ⟨s, hs⟩ := ih h
      rw [splitClose_cons he, hs]
      exact ⟨_, rfl⟩

/-- A run is split at its `+` unless it closes a group that it did not open. -/
theorem exists_splitUnion {depth d : Nat} (h : depth? depth p = some d) :
    ∃ s, splitUnion depth p = some s := by
  induction p generalizing depth with
  | nil => exact ⟨_, by rw [splitUnion]⟩
  | cons t rest ih =>
    obtain ⟨e, he, h⟩ := Option.bind_eq_some_iff.1 h
    obtain ⟨s, hs⟩ := ih h
    by_cases hu : t = .union ∧ depth = 0
    · obtain ⟨rfl, rfl⟩ := hu
      cases he
      rw [splitUnion, hs]
      exact ⟨_, rfl⟩
    · rw [splitUnion_cons he fun ht hz => hu ⟨ht, hz⟩, hs]
      exact ⟨_, rfl⟩

/-- What follows a piece is a run of the same kind, which does not begin with an operator. -/
theorem follows_piece {body after : Pattern} (hbody : body.Balanced)
    (hb : Balanced (body ++ after)) (hf : Flat (body ++ after)) :
    (Balanced (after.dropWhile Token.isRepetition) ∧ Flat (after.dropWhile Token.isRepetition)) ∧
      ∀ r rest, after.dropWhile Token.isRepetition ≠ .repetition r :: rest := by
  have hafter : body ++ after = (body ++ after.takeWhile Token.isRepetition) ++
      after.dropWhile Token.isRepetition := by
    rw [List.append_assoc, List.takeWhile_append_dropWhile]
  have hops : Balanced (after.takeWhile Token.isRepetition) :=
    balanced_of_isRepetition fun t ht => List.mem_takeWhile_imp ht
  rw [hafter] at hb hf
  refine ⟨balanced_flat_of_append (hbody.append hops) hb hf, fun r rest hrest => ?_⟩
  have hhead := List.head?_dropWhile_not Token.isRepetition after
  rw [hrest] at hhead
  cases hhead

/-- A balanced run without a `+` outside groups is split into pieces unless it begins with an
operator. -/
theorem piecesOf_of_flat (whole : Pattern) (hb : p.Balanced) (hf : p.Flat) :
    (∃ ps, piecesOf whole p = .ok ps) ∨ ∃ r rest, p = .repetition r :: rest ∧
      piecesOf whole p = .error (.danglingOperator r.char) := by
  fun_induction piecesOf whole p with
  | case1 => exact .inl ⟨[], rfl⟩
  | case2 label rest ih =>
    have hatom : Balanced [.atom label] := rfl
    obtain ⟨hrest, hhead⟩ := follows_piece hatom hb hf
    obtain ⟨ps, hps⟩ | ⟨r, tail, he, -⟩ := ih hrest.1 hrest.2
    · exact .inl ⟨_, map_eq_ok_iff.2 ⟨ps, hps, rfl⟩⟩
    · exact absurd he (hhead r tail)
  | case3 rest hnone =>
    have hclosed : depth? 1 rest = some 0 := hb
    obtain ⟨s, hs⟩ := exists_splitClose hclosed
    rw [hnone] at hs
    cases hs
  | case4 rest inner after hsplit ih =>
    obtain ⟨rfl, hclosed⟩ := splitClose_eq_some_iff.1 hsplit
    have hinner : inner.Balanced := hclosed
    have hgroup : .groupOpen :: (inner ++ .groupClose :: after) = grouped inner ++ after := by
      simp [grouped]
    rw [hgroup] at hb hf
    obtain ⟨hrest, hhead⟩ := follows_piece hinner.grouped hb hf
    obtain ⟨ps, hps⟩ | ⟨r, tail, he, -⟩ := ih hrest.1 hrest.2
    · exact .inl ⟨_, map_eq_ok_iff.2 ⟨ps, hps, rfl⟩⟩
    · exact absurd he (hhead r tail)
  | case5 r rest => exact .inr ⟨r, rest, rfl, rfl⟩
  | case6 rest => exact absurd rfl (hf [] rest rfl)
  | case7 => cases hb

/-- An alternative that is nothing is a fault. -/
theorem fault_of_alternatives? (hb : p.Balanced) (h : alternatives? p = .error cause) :
    cause.OfGrammar ∧ ¬ p.Formed := by
  unfold alternatives? at h
  split at h
  · rename_i hnone
    obtain ⟨s, hs⟩ := exists_splitUnion hb
    rw [hnone] at hs
    cases hs
  · cases h
  · rename_i first others hne hsplit
    split at h
    · rename_i hempty
      cases h
      refine ⟨.emptyAlternative _, fun hp => ?_⟩
      obtain ⟨hf, ho⟩ := parts_of_splitUnion hsplit hb
      have hjoined : p = joined first others := eq_of_splitUnion hsplit
      obtain ⟨second, rest, rfl⟩ := List.exists_cons_of_ne_nil hne
      rw [hjoined, formed_joined_iff (List.forall_mem_cons.2 ⟨hf, ho⟩) (by simp [joined])] at hp
      obtain ⟨q, hq, hnil⟩ := List.any_eq_true.1 hempty
      exact (hp q hq).1 (List.isEmpty_iff.1 hnil)
    · cases h

theorem fault_of_operand? (h : operand? p = .error cause) :
    cause.OfGrammar ∧ ¬ p.Formed := by
  unfold operand? at h
  split at h
  · rename_i r hlast
    split at h
    · rename_i hempty
      cases h
      refine ⟨.danglingOperator _, fun hp => ?_⟩
      have hp' : [.repetition r] = p := by
        have := List.dropLast_append_getLast? _ hlast
        rwa [List.isEmpty_iff.1 hempty] at this
      subst hp'
      have hops := flat_repetition r
      rw [formed_iff_of_flat hops.1 hops.2 (List.cons_ne_nil _ _), begins_cons] at hp
      cases hp
    · cases h
  · cases h

/-- Where pieces are not found, the run begins with an operator. -/
theorem fault_of_pieces (hb : p.Balanced) (hf : p.Flat) (h : pieces p = .error cause) :
    cause.OfGrammar ∧ ¬ p.Formed := by
  obtain ⟨ps, hps⟩ | ⟨r, rest, rfl, hfault⟩ := piecesOf_of_flat p hb hf
  · cases hps.symm.trans h
  · cases hfault.symm.trans h
    refine ⟨.danglingOperator _, fun hp => ?_⟩
    rw [formed_iff_of_flat hb hf (List.cons_ne_nil _ _), begins_cons] at hp
    cases hp

theorem ne_nil_of_alternatives? {parts : List Pattern} (h : alternatives? p = .ok (some parts)) :
    ∀ q ∈ parts, q ≠ [] := by
  unfold alternatives? at h
  split at h
  · cases h
  · cases h
  · split at h
    · cases h
    · rename_i hfull
      cases h
      exact fun q hq hnil => hfull (List.any_eq_true.2 ⟨q, hq, List.isEmpty_iff.2 hnil⟩)

theorem ne_nil_of_operand? {operand : Pattern} {r : Repetition}
    (h : operand? p = .ok (some (operand, r))) : operand ≠ [] := by
  unfold operand? at h
  split at h
  · split at h
    · cases h
    · rename_i hfull
      cases h
      exact fun hnil => hfull (List.isEmpty_iff.2 hnil)
  · cases h

end Pattern

/-- No part of the rule that is chosen is missing. -/
theorem filled_of_ofPattern (h : Decomposition.ofPattern p = .ok d) : d.Filled := by
  unfold Decomposition.ofPattern at h
  split at h
  · cases h
    trivial
  split at h
  · cases h
    trivial
  obtain ⟨parts?, hparts, h⟩ := bind_eq_ok_iff.1 h
  rcases parts? with _ | parts
  case some =>
    cases h
    exact ne_nil_of_alternatives? hparts
  obtain ⟨operand?, hoperand, h⟩ := bind_eq_ok_iff.1 h
  rcases operand? with _ | ⟨operand, r⟩
  case some =>
    cases h
    exact ne_nil_of_operand? hoperand
  obtain ⟨ps, -, h⟩ := bind_eq_ok_iff.1 h
  split at h
  · split at h <;> cases h
    trivial
  · cases h
  · cases h
    trivial

/-- A piece that is no group and does not end in an operator is an atom. -/
theorem Pattern.IsPiece.exists_atom (h : p.IsPiece) (hgroup : ∀ i, interior? p ≠ some i)
    (hlast : ∀ r, p.getLast? ≠ some (.repetition r)) : ∃ l, p = [.atom l] := by
  obtain ⟨body, ops, rfl, hbody, hops⟩ := h
  rcases List.eq_nil_or_concat ops with rfl | ⟨front, t, rfl⟩
  · rw [List.append_nil] at hgroup ⊢
    rcases hbody with ⟨l, rfl⟩ | ⟨i, hi, rfl⟩
    · exact ⟨l, rfl⟩
    · exact absurd (interior?_eq_some_iff.2 ⟨rfl, hi⟩) (hgroup i)
  · have ht := hops t (by simp)
    cases t with
    | repetition r => exact absurd (by simp) (hlast r)
    | groupOpen => cases ht
    | groupClose => cases ht
    | union => cases ht
    | atom => cases ht

/-- A balanced run for which no rule is found breaks the grammar, and the fault says so. -/
theorem fault_of_ofPattern (hb : p.Balanced) (h : Decomposition.ofPattern p = .error cause) :
    cause.OfGrammar ∧ ¬ p.Formed := by
  unfold Decomposition.ofPattern at h
  split at h
  · cases h
  rename_i hne
  split at h
  · cases h
  rename_i hinterior
  obtain h | ⟨parts?, hparts, h⟩ := bind_eq_error_iff.1 h
  · exact fault_of_alternatives? hb h
  rcases parts? with _ | parts
  case some => cases h
  obtain ⟨first, hsplit⟩ := alternatives?_eq_none hparts
  have hflat := flat_of_splitUnion hb hsplit
  obtain h | ⟨operand?, hoperand, h⟩ := bind_eq_error_iff.1 h
  · exact fault_of_operand? h
  rcases operand? with _ | ⟨operand, r⟩
  case some => cases h
  obtain h | ⟨ps, hps, h⟩ := bind_eq_error_iff.1 h
  · exact fault_of_pieces hb hflat h
  have hflatten : ps.flatten = p := flatten_pieces hps
  split at h
  · rename_i piece
    rw [List.flatten_singleton] at hflatten
    subst hflatten
    -- a single piece that is not an atom would have been taken apart before
    obtain ⟨l, rfl⟩ := (isPiece_of_mem_piecesOf hps piece List.mem_cons_self).exists_atom
      (by simpa using hinterior) (operand?_eq_none hoperand)
    cases h
  · exact absurd (List.isEmpty_iff.2 hflatten.symm) hne
  · cases h

end Acceptor
