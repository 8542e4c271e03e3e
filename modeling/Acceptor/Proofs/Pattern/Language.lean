/-
The words of a run of tokens, found by its reading: nothing has the empty word, a group the words
of its inside, and so on down to the atoms. Main statement: the words of a run are made from those
of the parts that it is taken apart into (`language_of_reading`). Whatever has this property gives
a run a meaning, of which the words are one.
-/
import Acceptor.Proofs.Pattern.Reading
import Mathlib.Algebra.BigOperators.Group.List.Basic
import Mathlib.Computability.Language

open scoped Computability

namespace Acceptor

/-- What an edge with a label reads: nothing, or one character. -/
def Label.language : Label → Language Char
  | .epsilon => 1
  | l => {w | ∃ c, w = [c] ∧ l.reads c = true}

theorem Label.mem_language_iff {l : Label} {w : List Char} (hl : l ≠ .epsilon) :
    w ∈ l.language ↔ ∃ c, w = [c] ∧ l.reads c = true := by
  cases l with
  | epsilon => exact absurd rfl hl
  | any => exact Iff.rfl
  | literal => exact Iff.rfl
  | range => exact Iff.rfl
  | oneOf => exact Iff.rfl
  | noneOf => exact Iff.rfl

/-! ## Words -/

/-- The words of a run of tokens. -/
inductive Pattern.Words : Pattern → List Char → Prop
  | atom {p : Pattern} {l : Label} {w : List Char} :
      Reading p (.atom l) → w ∈ l.language → Words p w
  | group {p inner : Pattern} {w : List Char} :
      Reading p (.group inner) → Words inner w → Words p w
  | union {p part : Pattern} {parts : List Pattern} {w : List Char} :
      Reading p (.union parts) → part ∈ parts → Words part w → Words p w
  | repetition {p operand : Pattern} {r : Repetition} {ws : List (List Char)} :
      Reading p (.repetition r operand) → (r = .plus → ws ≠ []) → (∀ v ∈ ws, Words operand v) →
      Words p ws.flatten
  | chain {p : Pattern} {pieces : List Pattern} {ws : List (List Char)} :
      Reading p (.chain pieces) → pieces.length = ws.length →
      (∀ e ∈ pieces.zip ws, Words e.1 e.2) → Words p ws.flatten

/-- The language of a run of tokens. -/
def Pattern.language (p : Pattern) : Language Char := {w | p.Words w}

/-- The words of what a run is taken apart into, given those of labels and of smaller runs. -/
def Decomposition.language (label : Label → Language Char) (pattern : Pattern → Language Char) :
    Decomposition → Language Char
  | group inner => pattern inner
  | union parts => {w | ∃ part ∈ parts, w ∈ pattern part}
  | repetition .star operand => (pattern operand)∗
  | repetition .plus operand => pattern operand * (pattern operand)∗
  | chain pieces => (pieces.map pattern).prod
  | atom l => label l

theorem language_union_nil {label : Label → Language Char} {pattern : Pattern → Language Char} :
    Decomposition.language label pattern (.union []) = 0 := by
  ext w
  exact ⟨fun ⟨_, hm, _⟩ => absurd hm List.not_mem_nil, fun hw => absurd hw (Language.notMem_zero w)⟩

theorem language_union_cons {label : Label → Language Char} {pattern : Pattern → Language Char}
    {q : Pattern} {parts : List Pattern} :
    Decomposition.language label pattern (.union (q :: parts)) =
      pattern q + Decomposition.language label pattern (.union parts) := by
  ext w
  rw [Language.mem_add]
  change (∃ part ∈ q :: parts, w ∈ pattern part) ↔ _ ∨ ∃ part ∈ parts, w ∈ pattern part
  rw [List.exists_mem_cons_iff]

/-- A word of a product has one part for each factor. -/
theorem mem_prod_map_iff {pattern : Pattern → Language Char} {ps : List Pattern} {w : List Char} :
    w ∈ (ps.map pattern).prod ↔ ∃ ws : List (List Char), w = ws.flatten ∧ ps.length = ws.length ∧
      ∀ e ∈ ps.zip ws, e.2 ∈ pattern e.1 := by
  induction ps generalizing w with
  | nil =>
    rw [List.map_nil, List.prod_nil, Language.mem_one]
    constructor
    · rintro rfl
      exact ⟨[], rfl, rfl, by simp⟩
    · rintro ⟨ws, rfl, hlen, -⟩
      rw [List.length_eq_zero_iff.1 hlen.symm, List.flatten_nil]
  | cons p ps ih =>
    rw [List.map_cons, List.prod_cons, Language.mem_mul]
    constructor
    · rintro ⟨u, hu, v, hv, rfl⟩
      obtain ⟨ws, rfl, hlen, hws⟩ := ih.1 hv
      refine ⟨u :: ws, rfl, by rw [List.length_cons, List.length_cons, hlen], fun e he => ?_⟩
      rcases List.mem_cons.1 he with rfl | he
      · exact hu
      · exact hws e he
    · rintro ⟨ws, rfl, hlen, hws⟩
      cases ws with
      | nil => cases hlen
      | cons u ws =>
        have hu := hws (p, u) List.mem_cons_self
        refine ⟨u, hu, ws.flatten, ih.2 ⟨ws, rfl, Nat.succ.inj hlen, fun e he => ?_⟩, rfl⟩
        exact hws e (List.mem_cons_of_mem _ he)

/-- A word of a repetition is made up of words of the operand, at least one where asked for. -/
theorem mem_repetition_iff {label : Label → Language Char} {pattern : Pattern → Language Char}
    {r : Repetition} {operand : Pattern} {w : List Char} :
    w ∈ Decomposition.language label pattern (.repetition r operand) ↔
      ∃ ws : List (List Char), w = ws.flatten ∧ (r = .plus → ws ≠ []) ∧
        ∀ v ∈ ws, v ∈ pattern operand := by
  cases r with
  | star =>
    change w ∈ (pattern operand)∗ ↔ _
    rw [Language.mem_kstar]
    simp only [reduceCtorEq, false_implies, true_and]
  | plus =>
    change w ∈ pattern operand * (pattern operand)∗ ↔ _
    rw [Language.mem_mul]
    constructor
    · rintro ⟨u, hu, v, hv, rfl⟩
      obtain ⟨ws, rfl, hws⟩ := Language.mem_kstar.1 hv
      exact ⟨u :: ws, rfl, fun _ => List.cons_ne_nil _ _, List.forall_mem_cons.2 ⟨hu, hws⟩⟩
    · rintro ⟨ws, rfl, hne, hws⟩
      cases ws with
      | nil => exact absurd rfl (hne rfl)
      | cons u ws =>
        obtain ⟨hu, hws⟩ := List.forall_mem_cons.1 hws
        exact ⟨u, hu, ws.flatten, Language.mem_kstar.2 ⟨ws, rfl, hws⟩, rfl⟩

/-- The words of a run are those of what it is taken apart into. -/
theorem language_of_reading {p : Pattern} {d : Decomposition} (h : Reading p d) :
    p.language = d.language Label.language Pattern.language := by
  ext w
  constructor
  · intro hw
    change p.Words w at hw
    cases hw with
    | atom hr hl => cases h.unique hr; exact hl
    | group hr hi => cases h.unique hr; exact hi
    | union hr hm hp => cases h.unique hr; exact ⟨_, hm, hp⟩
    | repetition hr hne hws =>
      cases h.unique hr
      exact mem_repetition_iff.2 ⟨_, rfl, hne, hws⟩
    | chain hr hlen hws =>
      cases h.unique hr
      exact mem_prod_map_iff.2 ⟨_, rfl, hlen, hws⟩
  · intro hw
    change p.Words w
    cases d with
    | group inner => exact .group h hw
    | union parts =>
      obtain ⟨part, hm, hp⟩ := hw
      exact .union h hm hp
    | repetition r operand =>
      obtain ⟨ws, rfl, hne, hws⟩ := mem_repetition_iff.1 hw
      exact .repetition h hne hws
    | chain pieces =>
      obtain ⟨ws, rfl, hlen, hws⟩ := mem_prod_map_iff.1 hw
      exact .chain h hlen hws
    | atom l => exact .atom h hw

/-! ## Meanings -/

/-- Languages of labels and of runs, where that of a run is made from those of its parts. -/
structure Meaning where
  label : Label → Language Char
  pattern : Pattern → Language Char
  label_epsilon : label .epsilon = 1
  pattern_eq : ∀ {p : Pattern} {d : Decomposition}, Reading p d →
    pattern p = d.language label pattern

namespace Meaning

/-- What labels and runs read. -/
def words : Meaning := ⟨Label.language, Pattern.language, rfl, language_of_reading⟩

/-- The meaning by which nothing is ever read, so that paths matter and not what they read. -/
def mute : Meaning where
  label _ := 1
  pattern _ := 1
  label_epsilon := rfl
  pattern_eq := by
    intro p d h
    cases h with
    | empty => rfl
    | group => rfl
    | @union first others =>
      ext w
      exact ⟨fun hw => ⟨first, List.mem_cons_self, hw⟩, fun ⟨_, _, hw⟩ => hw⟩
    | @repetition operand r =>
      cases r with
      | star => exact kstar_one.symm
      | plus => exact (one_mul _).symm.trans (congrArg _ kstar_one.symm)
    | @chain pieces =>
      rw [Decomposition.language, List.map_const', List.prod_replicate, one_pow]
    | atom => rfl

end Meaning

end Acceptor
