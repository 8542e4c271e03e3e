/-
How a run of tokens is read: as nothing, a group, alternatives, a repetition of everything before
the last token, a concatenation of pieces or a single atom, in this order. Main statements: a run
has at most one reading (`Reading.unique`), and the rule that is chosen for a balanced run is its
reading (`reading_of_ofPattern`).
-/
import Acceptor.Pattern.Decomposition
import Acceptor.Proofs.Outcome
import Acceptor.Proofs.Pattern.Nesting
import Mathlib.Data.List.TakeWhile

namespace Acceptor

namespace Pattern

/-! ## Pieces -/

/-- An atom, or a group. -/
def IsUnit (p : Pattern) : Prop :=
  (∃ l, p = [.atom l]) ∨ ∃ inner, inner.Balanced ∧ p = grouped inner

/-- An atom or a group, with the operators that follow it. -/
def IsPiece (p : Pattern) : Prop :=
  ∃ body ops, p = body ++ ops ∧ body.IsUnit ∧ ∀ t ∈ ops, t.isRepetition = true

theorem IsPiece.cons {t : Token} {rest : Pattern} (h : IsPiece (t :: rest)) :
    t.isRepetition = false := by
  obtain ⟨body, ops, he, ⟨l, rfl⟩ | ⟨inner, -, rfl⟩, -⟩ := h
  · obtain ⟨rfl, -⟩ := List.cons.inj he
    rfl
  · obtain ⟨rfl, -⟩ := List.cons.inj he
    rfl

theorem IsPiece.ne_nil {p : Pattern} (h : p.IsPiece) : p ≠ [] := by
  obtain ⟨body, ops, rfl, ⟨l, rfl⟩ | ⟨inner, -, rfl⟩, -⟩ := h
  · exact List.cons_ne_nil _ _
  · exact List.cons_ne_nil _ _

theorem balanced_of_isRepetition {ops : Pattern} (h : ∀ t ∈ ops, t.isRepetition = true) :
    ops.Balanced := by
  induction ops with
  | nil => rfl
  | cons t rest ih =>
    have ht := h t List.mem_cons_self
    have hd : t.depth? 0 = some 0 :=
      Token.depth?_of_ne (by rintro rfl; cases ht) (by rintro rfl; cases ht)
    rw [Balanced, depth?, hd]
    exact ih fun u hu => h u (List.mem_cons_of_mem _ hu)

theorem IsPiece.balanced {p : Pattern} (h : p.IsPiece) : p.Balanced := by
  obtain ⟨body, ops, rfl, hbody, hops⟩ := h
  refine Balanced.append ?_ (balanced_of_isRepetition hops)
  rcases hbody with ⟨l, rfl⟩ | ⟨inner, hb, rfl⟩
  · rfl
  · exact hb.grouped

/-- The operators of a piece end where the next piece starts. -/
theorem takeWhile_isRepetition {ops : Pattern} {ps : List Pattern}
    (hops : ∀ t ∈ ops, t.isRepetition = true) (hps : ∀ p ∈ ps, p.IsPiece) :
    (ops ++ ps.flatten).takeWhile Token.isRepetition = ops ∧
      (ops ++ ps.flatten).dropWhile Token.isRepetition = ps.flatten := by
  have hstop : ps.flatten.takeWhile Token.isRepetition = [] ∧
      ps.flatten.dropWhile Token.isRepetition = ps.flatten := by
    cases ps with
    | nil => exact ⟨rfl, rfl⟩
    | cons p rest =>
      have hp := hps p List.mem_cons_self
      cases p with
      | nil => exact absurd rfl hp.ne_nil
      | cons t p => simp [hp.cons]
  rw [List.takeWhile_append_of_pos hops, List.dropWhile_append_of_pos hops, hstop.1, hstop.2]
  exact ⟨List.append_nil ops, rfl⟩

/-- A run that is made up of pieces is split into them. -/
theorem piecesOf_flatten (whole : Pattern) {ps : List Pattern} (h : ∀ p ∈ ps, p.IsPiece) :
    piecesOf whole ps.flatten = .ok ps := by
  induction ps with
  | nil => rw [List.flatten_nil, piecesOf]
  | cons p rest ih =>
    have hrest := ih fun q hq => h q (List.mem_cons_of_mem _ hq)
    obtain ⟨body, ops, rfl, hbody, hops⟩ := h p List.mem_cons_self
    obtain ⟨htake, hdrop⟩ := takeWhile_isRepetition hops fun q hq => h q (List.mem_cons_of_mem _ hq)
    rcases hbody with ⟨l, rfl⟩ | ⟨inner, hb, rfl⟩
    · change piecesOf whole (.atom l :: (ops ++ rest.flatten)) = _
      rw [piecesOf, htake, hdrop, hrest]
      rfl
    · have hsplit : splitClose 0 (inner ++ .groupClose :: (ops ++ rest.flatten)) =
          some (inner, ops ++ rest.flatten) := splitClose_eq_some_iff.2 ⟨rfl, hb⟩
      have hshape : ((grouped inner ++ ops) :: rest).flatten =
          .groupOpen :: (inner ++ .groupClose :: (ops ++ rest.flatten)) := by
        simp [grouped]
      rw [hshape, piecesOf]
      split
      · rename_i hnone
        rw [hsplit] at hnone
        cases hnone
      · rename_i hsome
        rw [hsplit] at hsome
        cases hsome
        rw [htake, hdrop, hrest]
        simp [grouped, Except.map]

theorem isPiece_of_mem_piecesOf {whole p : Pattern} {ps : List Pattern}
    (h : piecesOf whole p = .ok ps) : ∀ q ∈ ps, q.IsPiece := by
  fun_induction piecesOf whole p generalizing ps with
  | case1 => cases h; simp
  | case2 label rest ih =>
    obtain ⟨qs, hqs, rfl⟩ := map_eq_ok_iff.1 h
    intro q hq
    rcases List.mem_cons.1 hq with rfl | hq
    · exact ⟨[.atom label], _, rfl, .inl ⟨label, rfl⟩, fun t ht => List.mem_takeWhile_imp ht⟩
    · exact ih hqs q hq
  | case3 => cases h
  | case4 rest inner after hsplit ih =>
    obtain ⟨qs, hqs, rfl⟩ := map_eq_ok_iff.1 h
    intro q hq
    rcases List.mem_cons.1 hq with rfl | hq
    · refine ⟨grouped inner, after.takeWhile Token.isRepetition, by simp [grouped], ?_,
        fun t ht => List.mem_takeWhile_imp ht⟩
      exact .inr ⟨inner, (splitClose_eq_some_iff.1 hsplit).2, rfl⟩
    · exact ih hqs q hq
  | case5 => cases h
  | case6 => cases h
  | case7 => cases h

end Pattern

open Pattern

/-! ## Readings -/

/-- The way in which a balanced run is read. A group in whole is read as what is inside it; else a
run with a `+` outside all groups as its alternatives; else one that ends in an operator as the
repetition of all that stands before that; else as its pieces one after the other, or as the one
atom that it is. -/
inductive Reading : Pattern → Decomposition → Prop
  | empty : Reading [] (.atom .epsilon)
  | group {inner : Pattern} : inner.Balanced → Reading (grouped inner) (.group inner)
  | union {first : Pattern} {others : List Pattern} : others ≠ [] →
      (∀ part ∈ first :: others, part.Balanced ∧ part.Flat) →
      Reading (joined first others) (.union (first :: others))
  | repetition {operand : Pattern} {r : Repetition} : operand.Balanced → operand.Flat →
      Reading (operand ++ [.repetition r]) (.repetition r operand)
  | chain {pieces : List Pattern} : 2 ≤ pieces.length → (∀ q ∈ pieces, q.IsPiece) →
      (∀ r, pieces.flatten.getLast? ≠ some (.repetition r)) →
      Reading pieces.flatten (.chain pieces)
  | atom {l : Label} : Reading [.atom l] (.atom l)

namespace Pattern

theorem IsUnit.flat {p : Pattern} (h : p.IsUnit) : p.Balanced ∧ p.Flat := by
  rcases h with ⟨l, rfl⟩ | ⟨inner, hb, rfl⟩
  · exact ⟨rfl, flat_of_not_mem (by simp)⟩
  · exact ⟨hb.grouped, hb.flat_grouped⟩

theorem IsPiece.flat {p : Pattern} (h : p.IsPiece) : p.Flat := by
  obtain ⟨body, ops, rfl, hbody, hops⟩ := h
  refine Flat.append hbody.flat.1 hbody.flat.2 (flat_of_not_mem fun hmem => ?_)
  exact absurd (hops _ hmem) Bool.false_ne_true

theorem flat_flatten {ps : List Pattern} (h : ∀ p ∈ ps, p.IsPiece) : Flat ps.flatten := by
  induction ps with
  | nil => exact flat_of_not_mem (by simp)
  | cons p rest ih =>
    have hp := h p List.mem_cons_self
    exact Flat.append hp.balanced hp.flat (ih fun q hq => h q (List.mem_cons_of_mem _ hq))

theorem isPiece_grouped {inner : Pattern} (h : inner.Balanced) : (grouped inner).IsPiece :=
  ⟨grouped inner, [], (List.append_nil _).symm, .inr ⟨inner, h, rfl⟩, List.forall_mem_nil _⟩

/-- How often the last token repeats what stands before it. -/
def lastRepetition? (p : Pattern) : Option Repetition :=
  match p.getLast? with
  | some (.repetition r) => some r
  | _ => none

theorem lastRepetition?_eq_some_iff {p : Pattern} {r : Repetition} :
    lastRepetition? p = some r ↔ p.getLast? = some (.repetition r) := by
  unfold lastRepetition?
  split <;> simp_all

/-- What the rules find in a run, where no part that they find counts as a fault. -/
def view (p : Pattern) : Option Decomposition :=
  match p, interior? p, splitUnion 0 p, lastRepetition? p, pieces p with
  | [], _, _, _, _ => some (.atom .epsilon)
  | _, some inner, _, _, _ => some (.group inner)
  | _, none, some (first, second :: others), _, _ => some (.union (first :: second :: others))
  | _, none, _, some r, _ => some (.repetition r p.dropLast)
  | _, none, _, none, .ok [piece] => (atom? piece).map .atom
  | _, none, _, none, .ok pieces => some (.chain pieces)
  | _, none, _, none, .error _ => none

theorem exists_of_two_le_length {α : Type} {xs : List α} (h : 2 ≤ xs.length) :
    ∃ x y rest, xs = x :: y :: rest := by
  rcases xs with _ | ⟨x, _ | ⟨y, rest⟩⟩
  · cases h
  · exact absurd h (by simp)
  · exact ⟨x, y, rest, rfl⟩

theorem interior?_eq_none_of_parts {p first : Pattern} {others : List Pattern}
    (h : splitUnion 0 p = some (first, others)) (ho : others ≠ []) : interior? p = none := by
  rw [Option.eq_none_iff_forall_ne_some]
  intro inner hi
  obtain ⟨rfl, hb⟩ := interior?_eq_some_iff.1 hi
  rw [splitUnion_of_flat hb.grouped hb.flat_grouped] at h
  cases h
  exact ho rfl

theorem interior?_eq_none_of_last {p : Pattern} (h : p.getLast? ≠ some .groupClose) :
    interior? p = none := by
  rw [Option.eq_none_iff_forall_ne_some]
  intro inner hi
  obtain ⟨rfl, -⟩ := interior?_eq_some_iff.1 hi
  exact h (by rw [grouped, List.getLast?_concat])

/-- The pieces of a single atom. -/
theorem pieces_atom (l : Label) : pieces [.atom l] = .ok [[.atom l]] := by
  have h : IsPiece [.atom l] := ⟨[.atom l], [], rfl, .inl ⟨l, rfl⟩, List.forall_mem_nil _⟩
  exact piecesOf_flatten _ (List.forall_mem_singleton.2 h)

theorem interior?_eq_none_of_pieces {ps : List Pattern} (h : ∀ p ∈ ps, p.IsPiece)
    (hlen : 2 ≤ ps.length) : interior? ps.flatten = none := by
  rw [Option.eq_none_iff_forall_ne_some]
  intro inner hi
  obtain ⟨he, hb⟩ := interior?_eq_some_iff.1 hi
  have h₁ := piecesOf_flatten [] h
  have h₂ := piecesOf_flatten [] (List.forall_mem_singleton.2 (isPiece_grouped hb))
  rw [List.flatten_singleton, ← he, h₁] at h₂
  have := congrArg List.length (Except.ok.inj h₂)
  simp at this
  omega

end Pattern

theorem Reading.view_eq {p : Pattern} {d : Decomposition} (h : Reading p d) : p.view = some d := by
  cases h with
  | empty => rfl
  | @group inner hb =>
    have hi := interior?_eq_some_iff.2 ⟨rfl, hb⟩
    unfold view
    rw [hi]
    rfl
  | @union first others ho hparts =>
    have hf := hparts first List.mem_cons_self
    have hsplit := splitUnion_joined hf fun q hq => hparts q (List.mem_cons_of_mem _ hq)
    have hi := interior?_eq_none_of_parts hsplit ho
    cases others with
    | nil => exact absurd rfl ho
    | cons second others =>
      have hne : joined first (second :: others) ≠ [] := by simp [joined]
      obtain ⟨t, rest, hj⟩ := List.exists_cons_of_ne_nil hne
      unfold view
      rw [hi, hsplit, hj]
  | @repetition operand r hb hf =>
    have hops : Balanced [.repetition r] ∧ Flat [.repetition r] := ⟨rfl, flat_of_not_mem (by simp)⟩
    have hi : interior? (operand ++ [.repetition r]) = none := interior?_eq_none_of_last (by simp)
    have hsplit := splitUnion_of_flat (hb.append hops.1) (Flat.append hb hf hops.2)
    have hlast : lastRepetition? (operand ++ [.repetition r]) = some r :=
      lastRepetition?_eq_some_iff.2 List.getLast?_concat
    unfold view
    rw [hi, hsplit, hlast, List.dropLast_concat]
    cases operand <;> rfl
  | @chain pieces hlen hpieces hlast =>
    have hi := interior?_eq_none_of_pieces hpieces hlen
    have hsplit := splitUnion_of_flat (balanced_flatten fun q hq => (hpieces q hq).balanced)
      (flat_flatten hpieces)
    have hnone : lastRepetition? pieces.flatten = none := by
      rw [Option.eq_none_iff_forall_ne_some]
      exact fun r hr => hlast r (lastRepetition?_eq_some_iff.1 hr)
    have hps : Pattern.pieces pieces.flatten = .ok pieces := piecesOf_flatten _ hpieces
    obtain ⟨q, q', rest, rfl⟩ := exists_of_two_le_length hlen
    have hq := (hpieces q List.mem_cons_self).ne_nil
    have hne : (q :: q' :: rest).flatten ≠ [] := by simp [hq]
    obtain ⟨t, tail, ht⟩ := List.exists_cons_of_ne_nil hne
    unfold view
    rw [hi, hsplit, hnone, hps, ht]
  | @atom l =>
    have hi : interior? [.atom l] = none := interior?_eq_none_of_last (by simp)
    have hsplit : splitUnion 0 [.atom l] = some ([.atom l], []) :=
      splitUnion_of_flat rfl (flat_of_not_mem (by simp))
    unfold view
    rw [hi, hsplit, pieces_atom]
    rfl

/-- A run is read in one way at most. -/
theorem Reading.unique {p : Pattern} {d e : Decomposition} (hd : Reading p d) (he : Reading p e) :
    d = e :=
  Option.some.inj (hd.view_eq.symm.trans he.view_eq)

/-! ## The rule that is chosen -/

theorem alternatives?_eq_some {p : Pattern} {parts : List Pattern}
    (h : alternatives? p = .ok (some parts)) : ∃ first others,
      splitUnion 0 p = some (first, others) ∧ others ≠ [] ∧ parts = first :: others := by
  unfold alternatives? at h
  split at h
  · cases h
  · cases h
  · rename_i first others hne hsplit
    split at h
    · cases h
    · cases h
      exact ⟨first, others, hsplit, hne, rfl⟩

theorem alternatives?_eq_none {p : Pattern} (h : alternatives? p = .ok none) :
    ∃ first, splitUnion 0 p = some (first, []) := by
  unfold alternatives? at h
  split at h
  · cases h
  · rename_i first hsplit
    exact ⟨first, hsplit⟩
  · split at h <;> cases h

theorem operand?_eq_some {p operand : Pattern} {r : Repetition}
    (h : operand? p = .ok (some (operand, r))) : p = operand ++ [.repetition r] := by
  unfold operand? at h
  split at h
  · rename_i s hlast
    split at h
    · cases h
    · cases h
      exact (List.dropLast_append_getLast? _ hlast).symm
  · cases h

theorem operand?_eq_none {p : Pattern} (h : operand? p = .ok none) (r : Repetition) :
    p.getLast? ≠ some (.repetition r) := by
  intro hlast
  unfold operand? at h
  rw [hlast] at h
  dsimp only at h
  split at h <;> cases h

theorem balanced_of_append {p q : Pattern} (h : (p ++ q).Balanced) (hq : q.Balanced) :
    p.Balanced := by
  rw [Pattern.Balanced, depth?_append] at h
  obtain ⟨d, hd, h⟩ := Option.bind_eq_some_iff.1 h
  rw [hq.depth? d] at h
  cases h
  exact hd

theorem atom?_eq_some_iff {p : Pattern} {l : Label} : atom? p = some l ↔ p = [.atom l] := by
  unfold atom?
  split <;> simp_all

theorem union_of_splitUnion {p first : Pattern} {others : List Pattern} (hb : p.Balanced)
    (h : splitUnion 0 p = some (first, others)) (ho : others ≠ []) :
    Reading p (.union (first :: others)) := by
  obtain ⟨hf, hothers⟩ := parts_of_splitUnion h hb
  have hp : p = joined first others := eq_of_splitUnion h
  rw [hp]
  exact .union ho (List.forall_mem_cons.2 ⟨hf, hothers⟩)

theorem flat_of_splitUnion {p first : Pattern} (hb : p.Balanced)
    (h : splitUnion 0 p = some (first, [])) : p.Flat := by
  have hp : p = first ++ [] := eq_of_splitUnion h
  rw [List.append_nil] at hp
  rw [hp]
  exact (parts_of_splitUnion h hb).1.2

/-- The rule that is chosen for a balanced run is its reading. -/
theorem reading_of_ofPattern {p : Pattern} {d : Decomposition} (hb : p.Balanced)
    (h : Decomposition.ofPattern p = .ok d) : Reading p d := by
  unfold Decomposition.ofPattern at h
  split at h
  · rename_i hempty
    cases h
    exact List.isEmpty_iff.1 hempty ▸ .empty
  split at h
  · rename_i inner hi
    cases h
    obtain ⟨rfl, hinner⟩ := interior?_eq_some_iff.1 hi
    exact .group hinner
  obtain ⟨parts?, hparts, h⟩ := bind_eq_ok_iff.1 h
  rcases parts? with _ | parts
  case some =>
    cases h
    obtain ⟨first, others, hsplit, ho, rfl⟩ := alternatives?_eq_some hparts
    exact union_of_splitUnion hb hsplit ho
  obtain ⟨first, hsplit⟩ := alternatives?_eq_none hparts
  have hflat := flat_of_splitUnion hb hsplit
  obtain ⟨operand?, hoperand, h⟩ := bind_eq_ok_iff.1 h
  rcases operand? with _ | ⟨operand, r⟩
  case some =>
    cases h
    obtain rfl := operand?_eq_some hoperand
    refine .repetition (balanced_of_append hb rfl) fun x y hxy hx => ?_
    exact hflat x (y ++ [.repetition r]) (by rw [hxy]; simp) hx
  obtain ⟨ps, hps, h⟩ := bind_eq_ok_iff.1 h
  have hpieces := isPiece_of_mem_piecesOf hps
  have hp : p = ps.flatten := (flatten_pieces hps).symm
  split at h
  · rename_i piece
    split at h
    · rename_i l hl
      cases h
      obtain rfl := atom?_eq_some_iff.1 hl
      rw [hp]
      exact .atom
    · cases h
  · cases h
  · rename_i hone hnil
    cases h
    have hlast := operand?_eq_none hoperand
    rw [hp] at hlast ⊢
    refine .chain ?_ hpieces hlast
    rcases ps with _ | ⟨q, _ | ⟨q', rest⟩⟩
    · exact absurd rfl hnil
    · exact absurd rfl (hone q)
    · exact Nat.le_add_left 2 _

-- a trailing operator repeats all that stands before it
example (a b : Label) : Decomposition.ofPattern [.atom a, .atom b, .repetition .star] =
    .ok (.repetition .star [.atom a, .atom b]) := rfl

end Acceptor
