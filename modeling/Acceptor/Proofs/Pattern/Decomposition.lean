/-
One step of taking a pattern apart. Main statement: for a balanced run a rule is found, whose parts
put together are the run and are balanced and shorter, or the run breaks the grammar and the fault
says so (`ofPattern_lossless`). So the parts can be taken apart in turn without being checked.
-/
import Acceptor.Proofs.Pattern.Grammar

namespace Acceptor

open Pattern

variable {p q : Pattern} {d : Decomposition}

namespace Decomposition

/-- The parts of a rule, put together again as the rule says, are the run: no token is lost and
none is added. -/
def TakesApart (p : Pattern) : Decomposition → Prop
  | group inner => p = grouped inner
  | union parts => ∃ first others, parts = first :: others ∧ others ≠ [] ∧ p = joined first others ∧
      ∀ part ∈ parts, part ≠ [] ∧ part.Flat
  | repetition r operand => p = operand ++ [.repetition r] ∧ operand ≠ [] ∧ operand.Flat
  | chain pieces => p = pieces.flatten ∧ 2 ≤ pieces.length ∧ ∀ piece ∈ pieces, piece.IsPiece
  | atom l => p = [] ∧ l = .epsilon ∨ p = [.atom l]

end Decomposition

/-- The reading of a run takes it apart, where no part is missing. -/
theorem Reading.takesApart (h : Reading p d) (hd : d.Filled) : d.TakesApart p := by
  cases h with
  | empty => exact .inl ⟨rfl, rfl⟩
  | atom => exact .inr rfl
  | group => rfl
  | union ho hparts =>
    exact ⟨_, _, rfl, ho, rfl, fun q hq => ⟨hd q hq, (hparts q hq).2⟩⟩
  | repetition hb hf => exact ⟨rfl, hd, hf⟩
  | chain hlen hpieces => exact ⟨rfl, hlen, hpieces⟩

theorem Reading.balanced_of_mem_parts (h : Reading p d) (hq : q ∈ d.parts) : q.Balanced := by
  cases h with
  | empty => cases hq
  | atom => cases hq
  | group hb =>
    obtain rfl := List.mem_singleton.1 hq
    exact hb
  | union ho hparts => exact (hparts q hq).1
  | repetition hb hf =>
    obtain rfl := List.mem_singleton.1 hq
    exact hb
  | chain hlen hpieces => exact (hpieces q hq).balanced

/-- An alternative is without a `+` at least. -/
theorem length_lt_joined {first : Pattern} {others : List Pattern} (ho : others ≠ [])
    (hq : q ∈ first :: others) : q.length < (joined first others).length := by
  rw [joined, List.length_append]
  rcases List.mem_cons.1 hq with rfl | hq
  · obtain ⟨second, rest, rfl⟩ := List.exists_cons_of_ne_nil ho
    simp only [List.flatMap_cons, List.length_append, List.length_cons]
    omega
  · have hsub : List.Sublist (.union :: q) (others.flatMap (.union :: ·)) :=
      List.sublist_flatten_of_mem (List.mem_map_of_mem hq)
    have hle := hsub.length_le
    rw [List.length_cons] at hle
    omega

/-- A piece is without another one at least. -/
theorem length_lt_flatten {pieces : List Pattern} (hlen : 2 ≤ pieces.length)
    (hne : ∀ piece ∈ pieces, piece ≠ []) (hq : q ∈ pieces) :
    q.length < pieces.flatten.length := by
  obtain ⟨before, after, rfl⟩ := List.append_of_mem hq
  have hother : 0 < (before ++ after).flatten.length := by
    obtain ⟨x, hx⟩ : ∃ x, x ∈ before ++ after := by
      refine List.exists_mem_of_ne_nil _ fun hnil => ?_
      obtain ⟨rfl, rfl⟩ := List.append_eq_nil_iff.1 hnil
      exact absurd hlen (by simp)
    have hmem : x ∈ before ++ q :: after := by
      rw [List.mem_append] at hx ⊢
      exact hx.imp id (List.mem_cons_of_mem q)
    exact Nat.lt_of_lt_of_le (List.length_pos_iff.2 (hne x hmem))
      (List.sublist_flatten_of_mem hx).length_le
  simp only [List.flatten_append, List.flatten_cons, List.length_append] at hother ⊢
  omega

/-- Every part is shorter than the run. -/
theorem Reading.length_lt (h : Reading p d) (hq : q ∈ d.parts) : q.length < p.length := by
  cases h with
  | empty => cases hq
  | atom => cases hq
  | group hb =>
    obtain rfl := List.mem_singleton.1 hq
    simp only [grouped, List.length_append, List.length_cons]
    omega
  | union ho hparts => exact length_lt_joined ho hq
  | repetition hb hf =>
    obtain rfl := List.mem_singleton.1 hq
    simp
  | chain hlen hpieces => exact length_lt_flatten hlen (fun x hx => (hpieces x hx).ne_nil) hq

/-- A balanced run is taken apart without loss, into parts that are balanced and shorter, or it
breaks the grammar: some alternative in it is nothing, or an operator has nothing before it. The
counting of open groups never goes wrong, and no run is left without a rule. -/
theorem Decomposition.ofPattern_lossless (hb : p.Balanced) :
    (∃ d, ofPattern p = .ok d ∧ d.TakesApart p ∧ ∀ q ∈ d.parts, q.Balanced ∧ q.length < p.length) ∨
    ∃ cause, ofPattern p = .error cause ∧ cause.OfGrammar ∧ ¬ p.Formed := by
  cases h : ofPattern p with
  | ok d =>
    have hreading := reading_of_ofPattern hb h
    refine .inl ⟨d, rfl, hreading.takesApart (filled_of_ofPattern h), fun q hq => ?_⟩
    exact ⟨hreading.balanced_of_mem_parts hq, hreading.length_lt hq⟩
  | error cause => exact .inr ⟨cause, rfl, fault_of_ofPattern hb h⟩

/-- The tokens of `(a+b)^c*`. -/
def repeated : Pattern :=
  [.groupOpen, .atom (.literal 'a'), .union, .atom (.literal 'b'), .groupClose, .repetition .plus,
    .atom (.literal 'c'), .repetition .star]

theorem Decomposition.ofPattern_lossless_repeated : ∃ d, ofPattern repeated = .ok d ∧
    d.TakesApart repeated ∧ ∀ q ∈ d.parts, q.Balanced ∧ q.length < repeated.length := by
  have hb : repeated.Balanced := by decide
  refine (ofPattern_lossless hb).resolve_right ?_
  rintro ⟨cause, h, -⟩
  cases h

end Acceptor
