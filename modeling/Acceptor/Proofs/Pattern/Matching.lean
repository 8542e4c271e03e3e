/-
Which parenthesis belongs to which. A `)` is unmatched where more groups are closed than were
opened before it, and a group is closed by the first `)` after a balanced run. Main statements: a
run has no unmatched `)` exactly where its depth is defined (`noUnmatched_iff`), and it is balanced
exactly where, besides, each group that it opens is closed in it (`balanced_iff_closes`) or where
it closes as many groups as it opens (`balanced_iff_count`).
-/
import Acceptor.Proofs.Pattern.Nesting
import Mathlib.Data.List.Induction

namespace Acceptor

namespace Token

variable {t : Token} {d e : Nat}

theorem depth?_eq_none_iff : t.depth? d = none ↔ t = .groupClose ∧ d = 0 := by
  cases t with
  | groupClose => cases d <;> simp [depth?]
  | groupOpen => simp [depth?]
  | union => simp [depth?]
  | repetition => simp [depth?]
  | atom => simp [depth?]

/-- Only a `(` leaves a group open where none was. -/
theorem eq_groupOpen_of_depth? (h : t.depth? 0 = some (d + 1)) : t = .groupOpen ∧ d = 0 := by
  cases t with
  | groupOpen => cases h; exact ⟨rfl, rfl⟩
  | groupClose => cases h
  | union => cases h
  | repetition => cases h
  | atom => cases h

/-- An outermost group that is open before and after a token does not matter to it. -/
theorem depth?_of_succ (h : t.depth? (d + 1) = some (e + 1)) : t.depth? d = some e := by
  cases t with
  | groupOpen => cases h; rfl
  | groupClose => cases h; rfl
  | union => cases h; rfl
  | repetition => cases h; rfl
  | atom => cases h; rfl

end Token

namespace Pattern

variable {p q : Pattern} {d e : Nat}

/-- No part from the start closes more groups than it opens. -/
def NoUnmatched (p : Pattern) : Prop :=
  ∀ q, q <+: p → q.count .groupClose ≤ q.count .groupOpen

/-- A run closes the group that is opened right before it. -/
def Closes (p : Pattern) : Prop :=
  ∃ inner after : Pattern, p = inner ++ .groupClose :: after ∧ inner.Balanced

theorem depth?_concat (t : Token) : depth? d (p ++ [t]) = (depth? d p).bind t.depth? := by
  rw [depth?_append]
  refine Option.bind_congr fun e _ => ?_
  rw [depth?]
  cases t.depth? e <;> rfl

/-- There is no depth exactly where a `)` comes when no group is open. -/
theorem depth?_eq_none_iff : depth? d p = none ↔
    ∃ inner after, p = inner ++ .groupClose :: after ∧ depth? d inner = some 0 := by
  constructor
  · intro h
    induction p generalizing d with
    | nil => cases h
    | cons t rest ih =>
      rw [depth?] at h
      cases ht : t.depth? d with
      | none =>
        obtain ⟨rfl, rfl⟩ := Token.depth?_eq_none_iff.1 ht
        exact ⟨[], rest, rfl, rfl⟩
      | some e =>
        rw [ht, Option.bind_some] at h
        obtain ⟨inner, after, rfl, hinner⟩ := ih h
        exact ⟨t :: inner, after, rfl, by rw [depth?, ht, Option.bind_some, hinner]⟩
  · rintro ⟨inner, after, rfl, h⟩
    rw [depth?_append_of_eq h]
    rfl

theorem closes_iff : p.Closes ↔ depth? 0 p = none :=
  depth?_eq_none_iff.symm

theorem Closes.append (h : p.Closes) (q : Pattern) : (p ++ q).Closes := by
  obtain ⟨inner, after, rfl, hb⟩ := h
  exact ⟨inner, after ++ q, by simp, hb⟩

/-- A group that is open after a run: the outermost one was opened after a balanced run, and
nothing closes it. -/
theorem exists_open (h : depth? 0 p = some (d + 1)) :
    ∃ x y : Pattern, p = x ++ .groupOpen :: y ∧ x.Balanced ∧ depth? 0 y = some d := by
  -- the induction is from the end, where the depth is known
  induction p using List.reverseRecOn generalizing d with
  | nil => cases h
  | append_singleton p t ih =>
    rw [depth?_concat] at h
    obtain ⟨e, hp, ht⟩ := Option.bind_eq_some_iff.1 h
    cases e with
    | zero =>
      obtain ⟨rfl, rfl⟩ := Token.eq_groupOpen_of_depth? ht
      exact ⟨p, [], rfl, hp, rfl⟩
    | succ e =>
      obtain ⟨x, y, rfl, hx, hy⟩ := ih hp
      refine ⟨x, y ++ [t], by simp, hx, ?_⟩
      rw [depth?_concat, hy, Option.bind_some, Token.depth?_of_succ ht]

theorem count_of_depth? (h : depth? d p = some e) :
    d + p.count .groupOpen = e + p.count .groupClose := by
  induction p generalizing d with
  | nil => cases h; simp
  | cons t rest ih =>
    obtain ⟨k, hk, h⟩ := Option.bind_eq_some_iff.1 h
    have hrest := ih h
    cases t with
    | groupOpen =>
      cases hk
      rw [List.count_cons_self, List.count_cons_of_ne (by nofun)]
      omega
    | groupClose =>
      cases d with
      | zero => cases hk
      | succ d =>
        cases hk
        rw [List.count_cons_self, List.count_cons_of_ne (by nofun)]
        omega
    | union => cases hk; simpa using hrest
    | repetition => cases hk; simpa using hrest
    | atom => cases hk; simpa using hrest

/-- No `)` is unmatched exactly where there is a depth. -/
theorem noUnmatched_iff : p.NoUnmatched ↔ ∃ d, depth? 0 p = some d := by
  constructor
  · intro h
    refine Option.ne_none_iff_exists'.1 fun hnone => ?_
    obtain ⟨inner, after, rfl, hinner⟩ := depth?_eq_none_iff.1 hnone
    have hcount := count_of_depth? hinner
    have hle := h (inner ++ [.groupClose]) ⟨after, by simp⟩
    simp only [List.count_append, List.count_singleton_self] at hle
    have hzero : List.count Token.groupOpen [Token.groupClose] = 0 := by decide
    omega
  · rintro ⟨d, h⟩ q ⟨r, rfl⟩
    rw [depth?_append] at h
    obtain ⟨e, hq, -⟩ := Option.bind_eq_some_iff.1 h
    have hcount := count_of_depth? hq
    omega

theorem balanced_iff_count :
    p.Balanced ↔ p.NoUnmatched ∧ p.count .groupClose = p.count .groupOpen := by
  constructor
  · intro h
    have hcount := count_of_depth? h
    exact ⟨noUnmatched_iff.2 ⟨0, h⟩, by omega⟩
  · rintro ⟨h, he⟩
    obtain ⟨d, hd⟩ := noUnmatched_iff.1 h
    have hcount := count_of_depth? hd
    obtain rfl : d = 0 := by omega
    exact hd

theorem balanced_iff_closes : p.Balanced ↔
    p.NoUnmatched ∧ ∀ x y : Pattern, p = x ++ .groupOpen :: y → y.Closes := by
  constructor
  · intro h
    refine ⟨noUnmatched_iff.2 ⟨0, h⟩, ?_⟩
    rintro x y rfl
    refine closes_iff.2 (Option.eq_none_iff_forall_ne_some.2 fun e he => ?_)
    -- a group that is not closed after `x` stays open to the end
    rw [Balanced, depth?_append] at h
    obtain ⟨k, -, h⟩ := Option.bind_eq_some_iff.1 h
    have hopen : depth? (0 + (k + 1)) y = some 0 := by
      rw [Nat.zero_add]
      exact h
    rw [depth?_add he] at hopen
    cases hopen
  · rintro ⟨h, hclosed⟩
    obtain ⟨d, hd⟩ := noUnmatched_iff.1 h
    cases d with
    | zero => exact hd
    | succ d =>
      obtain ⟨x, y, rfl, -, hy⟩ := exists_open hd
      have hnone := closes_iff.1 (hclosed x y rfl)
      rw [hy] at hnone
      cases hnone

end Pattern

end Acceptor
