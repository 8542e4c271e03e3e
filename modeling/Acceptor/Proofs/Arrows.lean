/-
Moves between positions, each reading a word, and the words that paths of such moves spell.
Main statements: three ways to replace a move by moves through a fresh position that leave the
paths between all other positions as they were: a move out of it and a loop at it
(`path_loop_iff`, for repetition with or without a first reading) and a second move in line
(`path_chain_iff`). Moves that read at most one character are followed one character at a time
(`path_cons_iff`).
-/
import Mathlib.Computability.Language

open scoped Computability

namespace Acceptor

/-- Moves between positions, each reading a word. -/
abbrev Arrows := Nat → List Char → Nat → Prop

namespace Arrows

/-- The paths of some moves, with the words that they spell. -/
inductive Path (M : Arrows) : Nat → List Char → Nat → Prop
  | nil {i : Nat} : Path M i [] i
  | cons {i j k : Nat} {u v : List Char} : M i u j → Path M j v k → Path M i (u ++ v) k

variable {M N : Arrows} {i j k : Nat} {u v w : List Char}

theorem Path.single (h : M i u j) : M.Path i u j := by
  simpa using Path.cons h .nil

theorem Path.append (h₁ : M.Path i u j) (h₂ : M.Path j v k) : M.Path i (u ++ v) k := by
  induction h₁ with
  | nil => exact h₂
  | cons hm _ ih =>
    rw [List.append_assoc]
    exact .cons hm (ih h₂)

/-- Paths of moves that are paths of other moves. -/
theorem Path.refine (h : M.Path i w k) (hM : ∀ i u j, M i u j → N.Path i u j) : N.Path i w k := by
  induction h with
  | nil => exact .nil
  | cons hm _ ih => exact (hM _ _ _ hm).append ih

/-- One more move. -/
def add (M : Arrows) (a : Nat) (L : Language Char) (b : Nat) : Arrows :=
  fun i u j => M i u j ∨ i = a ∧ u ∈ L ∧ j = b

theorem path_add_of_path {a b : Nat} {L : Language Char} (h : M.Path i w k) :
    (M.add a L b).Path i w k :=
  h.refine fun _ _ _ hm => .single (.inl hm)

theorem path_add_self {a b : Nat} {L : Language Char} (h : u ∈ L) : (M.add a L b).Path a u b :=
  .single (.inr ⟨rfl, h, rfl⟩)

theorem add_zero {a b : Nat} : M.add a 0 b = M := by
  funext i u j
  rw [eq_iff_iff]
  refine ⟨?_, .inl⟩
  rintro (hm | ⟨-, hu, -⟩)
  · exact hm
  · exact absurd hu (Language.notMem_zero u)

/-- Moves side by side are one that reads what either does. -/
theorem add_add {a b : Nat} {L K : Language Char} :
    (M.add a L b).add a K b = M.add a (L + K) b := by
  funext i u j
  rw [eq_iff_iff]
  constructor
  · rintro ((hm | ⟨hi, hu, hj⟩) | ⟨hi, hu, hj⟩)
    · exact .inl hm
    · exact .inr ⟨hi, (Language.mem_add L K u).2 (.inl hu), hj⟩
    · exact .inr ⟨hi, (Language.mem_add L K u).2 (.inr hu), hj⟩
  · rintro (hm | ⟨hi, hu, hj⟩)
    · exact .inl (.inl hm)
    · rcases (Language.mem_add L K u).1 hu with hu | hu
      · exact .inl (.inr ⟨hi, hu, hj⟩)
      · exact .inr ⟨hi, hu, hj⟩

/-- A single move is all there is to follow. -/
theorem path_single_iff {a b : Nat} {L : Language Char} (hab : a ≠ b) :
    (add (fun _ _ _ => False) a L b).Path a w b ↔ w ∈ L := by
  refine ⟨fun h => ?_, path_add_self⟩
  cases h with
  | nil => exact absurd rfl hab
  | cons hm hp =>
    obtain hm | ⟨-, hu, rfl⟩ := hm
    · exact hm.elim
    · cases hp with
      | nil => rwa [List.append_nil]
      | cons hm _ =>
        obtain hm | ⟨rfl, -, -⟩ := hm
        · exact hm.elim
        · exact absurd rfl hab

/-- A position that no move leaves or enters. -/
def Fresh (M : Arrows) (m : Nat) : Prop := ∀ i u j, M i u j → i ≠ m ∧ j ≠ m

/-- Moves have the same paths between the positions below a bound. -/
def Agree (n : Nat) (M N : Arrows) : Prop :=
  ∀ i k, i < n → k < n → ∀ w, M.Path i w k ↔ N.Path i w k

theorem Agree.refl {n : Nat} : Agree n M M := fun _ _ _ _ _ => Iff.rfl

theorem Agree.trans {n : Nat} {K : Arrows} (h₁ : Agree n M N) (h₂ : Agree n N K) : Agree n M K :=
  fun i k hi hk w => (h₁ i k hi hk w).trans (h₂ i k hi hk w)

theorem Agree.mono {m n : Nat} (hmn : m ≤ n) (h : Agree n M N) : Agree m M N :=
  fun i k hi hk => h i k (Nat.lt_of_lt_of_le hi hmn) (Nat.lt_of_lt_of_le hk hmn)

/-! ## Passing through one position -/

/-- Paths that pass through a position `m` which is entered from `a` alone are paths of moves
without it, if what was read since `a` (a word of `P`) leads on without it. -/
theorem Path.bypass {a m : Nat} {P : Language Char} (h : N.Path i w k) (hk : k ≠ m)
    (hdirect : ∀ i u j, N i u j → i ≠ m → j ≠ m → M.Path i u j)
    (henter : ∀ i u, N i u m → i ≠ m → i = a ∧ u ∈ P)
    (hloop : ∀ u v, u ∈ P → N m v m → u ++ v ∈ P)
    (hleave : ∀ u v j, u ∈ P → N m v j → j ≠ m → M.Path a (u ++ v) j) :
    (i ≠ m → M.Path i w k) ∧ (i = m → ∀ u ∈ P, M.Path a (u ++ w) k) := by
  -- while the path stands at `m`, what it has read since `a` is owed
  induction h with
  | nil => exact ⟨fun _ => .nil, fun hi => absurd hi hk⟩
  | @cons i j k v w hm _ ih =>
    obtain ⟨hne, heq⟩ := ih hk
    constructor
    · intro hi
      by_cases hj : j = m
      · subst hj
        obtain ⟨rfl, hv⟩ := henter i v hm hi
        exact heq rfl v hv
      · exact (hdirect i v j hm hi hj).append (hne hj)
    · rintro rfl u hu
      rw [← List.append_assoc]
      by_cases hj : j = i
      · subst hj
        exact heq rfl _ (hloop u v hu hm)
      · exact (hleave u v j hu hm hj).append (hne hj)

section Gadgets

variable {a b m : Nat} {L K : Language Char}

/-- Two moves in line read what a word of each makes together. -/
theorem path_chain_iff (hM : M.Fresh m) (ha : a ≠ m) (hb : b ≠ m) (hi : i ≠ m) (hk : k ≠ m) :
    ((M.add a L m).add m K b).Path i w k ↔ (M.add a (L * K) b).Path i w k := by
  constructor
  · intro h
    -- the moves past `m`, into it, at it and out of it
    refine (h.bypass (a := a) (P := L) hk ?_ ?_ ?_ ?_).1 hi
    · rintro i u j ((hm | ⟨-, -, rfl⟩) | ⟨rfl, -, -⟩) hi hj
      · exact .single (.inl hm)
      · exact absurd rfl hj
      · exact absurd rfl hi
    · rintro i u ((hm | ⟨rfl, hu, -⟩) | ⟨rfl, -, -⟩) hi
      · exact absurd rfl (hM _ _ _ hm).2
      · exact ⟨rfl, hu⟩
      · exact absurd rfl hi
    · rintro u v - ((hm | ⟨rfl, -, -⟩) | ⟨-, -, rfl⟩)
      · exact absurd rfl (hM _ _ _ hm).1
      · exact absurd rfl ha
      · exact absurd rfl hb
    · rintro u v j hu ((hm | ⟨-, -, rfl⟩) | ⟨-, hv, rfl⟩) hj
      · exact absurd rfl (hM _ _ _ hm).1
      · exact absurd rfl hj
      · exact path_add_self (Language.append_mem_mul hu hv)
  · intro h
    refine h.refine ?_
    rintro i u j (hm | ⟨rfl, hu, rfl⟩)
    · exact .single (.inl (.inl hm))
    · obtain ⟨x, hx, y, hy, rfl⟩ := Language.mem_mul.1 hu
      exact (path_add_of_path (path_add_self hx)).append (path_add_self hy)

theorem Path.rounds {ws : List (List Char)} (h : ∀ v ∈ ws, N m v m) : N.Path m ws.flatten m := by
  induction ws with
  | nil => exact .nil
  | cons v ws ih =>
    exact .cons (h v List.mem_cons_self) (ih fun u hu => h u (List.mem_cons_of_mem _ hu))

/-- A loop that is entered by reading a word of `K` and left without reading. -/
theorem path_loop_iff (hM : M.Fresh m) (ha : a ≠ m) (hb : b ≠ m) (hi : i ≠ m) (hk : k ≠ m) :
    (((M.add a K m).add m 1 b).add m L m).Path i w k ↔ (M.add a (K * L∗) b).Path i w k := by
  constructor
  · intro h
    -- in the same order; here there is a move at `m`
    refine (h.bypass (a := a) (P := K * L∗) hk ?_ ?_ ?_ ?_).1 hi
    · rintro i u j (((hm | ⟨-, -, rfl⟩) | ⟨rfl, -, -⟩) | ⟨rfl, -, -⟩) hi hj
      · exact .single (.inl hm)
      · exact absurd rfl hj
      · exact absurd rfl hi
      · exact absurd rfl hi
    · rintro i u (((hm | ⟨rfl, hu, -⟩) | ⟨rfl, -, -⟩) | ⟨rfl, -, -⟩) hi
      · exact absurd rfl (hM _ _ _ hm).2
      · refine ⟨rfl, Language.mem_mul.2 ⟨u, hu, [], Language.nil_mem_kstar L, List.append_nil u⟩⟩
      · exact absurd rfl hi
      · exact absurd rfl hi
    · rintro u v hu (((hm | ⟨rfl, -, -⟩) | ⟨-, -, rfl⟩) | ⟨-, hv, -⟩)
      · exact absurd rfl (hM _ _ _ hm).1
      · exact absurd rfl ha
      · exact absurd rfl hb
      · have hle : K * L∗ * L ≤ K * L∗ := by
          rw [mul_assoc]
          exact mul_le_mul_right kstar_mul_le_kstar K
        exact hle (Language.append_mem_mul hu hv)
    · rintro u v j hu (((hm | ⟨-, -, rfl⟩) | ⟨-, hv, rfl⟩) | ⟨-, -, rfl⟩) hj
      · exact absurd rfl (hM _ _ _ hm).1
      · exact absurd rfl hj
      · rw [(Language.mem_one v).1 hv, List.append_nil]
        exact path_add_self hu
      · exact absurd rfl hj
  · intro h
    refine h.refine ?_
    rintro i u j (hm | ⟨rfl, hu, rfl⟩)
    · exact .single (.inl (.inl (.inl hm)))
    · obtain ⟨x, hx, y, hy, rfl⟩ := Language.mem_mul.1 hu
      obtain ⟨ws, rfl, hws⟩ := Language.mem_kstar.1 hy
      have hround : (((M.add i K m).add m 1 j).add m L m).Path m ws.flatten m :=
        .rounds fun v hv => .inr ⟨rfl, hws v hv, rfl⟩
      have hin : (((M.add i K m).add m 1 j).add m L m).Path i x m :=
        .single (.inl (.inl (.inr ⟨rfl, hx, rfl⟩)))
      have hout : (((M.add i K m).add m 1 j).add m L m).Path m [] j :=
        .single (.inl (.inr ⟨rfl, rfl, rfl⟩))
      simpa using hin.append (hround.append hout)

end Gadgets

/-! ## Moves that read at most one character -/

/-- No move reads more than one character. -/
def Slow (M : Arrows) : Prop := ∀ i u j, M i u j → u = [] ∨ ∃ c, u = [c]

/-- What is reached without reading. -/
abbrev Silent (M : Arrows) (i j : Nat) : Prop := M.Path i [] j

theorem silent_iff : M.Silent i j ↔ Relation.ReflTransGen (fun i j => M i [] j) i j := by
  constructor
  · intro h
    change M.Path i [] j at h
    generalize hw : ([] : List Char) = w at h
    induction h with
    | nil => exact .refl
    | cons hm _ ih =>
      obtain ⟨rfl, rfl⟩ := List.append_eq_nil_iff.1 hw.symm
      exact .head hm (ih rfl)
  · intro h
    induction h with
    | refl => exact .nil
    | tail _ hm ih => simpa using ih.append (.single hm)

/-- A path that reads a character reads it by one of its moves, before which it reads nothing. -/
theorem path_cons_iff (hM : M.Slow) {c : Char} :
    M.Path i (c :: w) k ↔ ∃ i' j, M.Silent i i' ∧ M i' [c] j ∧ M.Path j w k := by
  constructor
  · intro h
    generalize hcw : c :: w = x at h
    induction h with
    | nil => cases hcw
    | @cons i j k u v hm hp ih =>
      rcases hM _ _ _ hm with rfl | ⟨d, rfl⟩
      · obtain ⟨i', j', hs, hm', hp'⟩ := ih hcw
        exact ⟨i', j', by simpa using (Path.single hm).append hs, hm', hp'⟩
      · obtain ⟨rfl, rfl⟩ := List.cons.inj hcw
        exact ⟨i, j, .nil, hm, hp⟩
  · rintro ⟨i', j, hs, hm, hp⟩
    simpa using hs.append (.cons hm hp)

end Arrows

end Acceptor
