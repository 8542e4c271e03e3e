/-
Nesting of groups in a run of tokens. A run is balanced where it closes every group that it opens
and no other. Main statements: the splits at the `)` that closes a group (`splitClose_eq_some_iff`)
and at the `+` outside all groups (`parts_of_splitUnion`, `splitUnion_joined`) are exactly the
splits into balanced runs.
-/
import Acceptor.Pattern

namespace Acceptor

/-- How many groups are open after a token, where `depth` were open before it; there is no answer
for a `)` that closes none. -/
def Token.depth? : Token → Nat → Option Nat
  | groupOpen, depth => some (depth + 1)
  | groupClose, 0 => none
  | groupClose, depth + 1 => some depth
  | _, depth => some depth

namespace Token

/-- Only parentheses open and close groups. -/
theorem depth?_of_ne {t : Token} {depth : Nat} (ho : t ≠ groupOpen) (hc : t ≠ groupClose) :
    t.depth? depth = some depth := by
  cases t with
  | groupOpen => exact absurd rfl ho
  | groupClose => exact absurd rfl hc
  | union => rfl
  | repetition => rfl
  | atom => rfl

theorem depth?_add {t : Token} {d e : Nat} (h : t.depth? d = some e) (k : Nat) :
    t.depth? (d + k) = some (e + k) := by
  cases t with
  | groupOpen => cases h; rw [Nat.add_right_comm]; rfl
  | groupClose =>
    cases d with
    | zero => cases h
    | succ d => cases h; rw [Nat.add_right_comm]; rfl
  | union => cases h; rfl
  | repetition => cases h; rfl
  | atom => cases h; rfl

end Token

namespace Pattern

/-- How many groups are open after a run, where `depth` were open before it. -/
def depth? : Nat → Pattern → Option Nat
  | depth, [] => some depth
  | depth, t :: rest => (t.depth? depth).bind (depth? · rest)

/-- A run that closes every group that it opens, and no other. -/
def Balanced (p : Pattern) : Prop := depth? 0 p = some 0

instance (p : Pattern) : Decidable p.Balanced :=
  inferInstanceAs (Decidable (depth? 0 p = some 0))

-- a group that is closed before it is opened is not balanced
example : ¬ Balanced [.groupClose, .groupOpen] := by decide

/-- A balanced run whose atoms all have a property. -/
structure Sound (P : Label → Prop) (p : Pattern) : Prop where
  balanced : p.Balanced
  atoms : ∀ l, .atom l ∈ p → P l

/-- A run without a `+` outside all groups. -/
def Flat (p : Pattern) : Prop := ∀ x y, p = x ++ .union :: y → ¬ Balanced x

/-- A run in parentheses. -/
def grouped (inner : Pattern) : Pattern := .groupOpen :: inner ++ [.groupClose]

/-- Runs with a `+` between each two of them. -/
def joined (first : Pattern) (others : List Pattern) : Pattern :=
  first ++ others.flatMap (.union :: ·)

theorem depth?_append (depth : Nat) (p q : Pattern) :
    depth? depth (p ++ q) = (depth? depth p).bind (depth? · q) := by
  induction p generalizing depth with
  | nil => rfl
  | cons t rest ih =>
    rw [List.cons_append, depth?, depth?, Option.bind_assoc]
    exact Option.bind_congr fun d _ => ih d

theorem depth?_append_of_eq {depth d : Nat} {p q : Pattern} (h : depth? depth p = some d) :
    depth? depth (p ++ q) = depth? d q := by
  rw [depth?_append, h, Option.bind_some]

/-- More open groups around a run do not matter to it. -/
theorem depth?_add {d e : Nat} {p : Pattern} (h : depth? d p = some e) (k : Nat) :
    depth? (d + k) p = some (e + k) := by
  induction p generalizing d with
  | nil => cases h; rfl
  | cons t rest ih =>
    obtain ⟨f, hf, h⟩ := Option.bind_eq_some_iff.1 h
    rw [depth?, Token.depth?_add hf, Option.bind_some]
    exact ih h

theorem Balanced.depth? {p : Pattern} (h : p.Balanced) (k : Nat) : depth? k p = some k := by
  simpa using depth?_add h k

theorem Balanced.append {p q : Pattern} (hp : p.Balanced) (hq : q.Balanced) :
    (p ++ q).Balanced := by
  rw [Balanced, depth?_append_of_eq hp, hq]

theorem Balanced.grouped {inner : Pattern} (h : inner.Balanced) : (grouped inner).Balanced := by
  change Pattern.depth? 1 (inner ++ [.groupClose]) = some 0
  rw [depth?_append_of_eq (h.depth? 1)]
  rfl

theorem balanced_flatten {ps : List Pattern} (h : ∀ p ∈ ps, p.Balanced) : Balanced ps.flatten := by
  induction ps with
  | nil => rfl
  | cons p rest ih =>
    exact (h p List.mem_cons_self).append (ih fun q hq => h q (List.mem_cons_of_mem _ hq))

/-! ## The end of a group -/

theorem splitClose_cons {t : Token} {depth d : Nat} (h : t.depth? depth = some d) (rest : Pattern) :
    splitClose depth (t :: rest) = (splitClose d rest).map fun s => (t :: s.1, s.2) := by
  cases t with
  | groupOpen => cases h; rw [splitClose]
  | groupClose =>
    cases depth with
    | zero => cases h
    | succ => cases h; rw [splitClose]
  | union => cases h; rw [splitClose] <;> simp
  | repetition => cases h; rw [splitClose] <;> simp
  | atom => cases h; rw [splitClose] <;> simp

/-- A run is split at the first `)` that closes a group not opened in it. -/
theorem splitClose_eq_some_iff {depth : Nat} {p inner after : Pattern} :
    splitClose depth p = some (inner, after) ↔
      p = inner ++ .groupClose :: after ∧ depth? depth inner = some 0 := by
  constructor
  · intro h
    refine ⟨eq_of_splitClose h, ?_⟩
    fun_induction splitClose depth p generalizing inner with
    | case1 => cases h
    | case2 => cases h; rfl
    | case3 depth rest ih =>
      obtain ⟨s, hs, he⟩ := Option.map_eq_some_iff.1 h
      cases he
      exact ih hs
    | case4 depth rest ih =>
      obtain ⟨s, hs, he⟩ := Option.map_eq_some_iff.1 h
      cases he
      exact ih hs
    | case5 depth t rest h₁ h₂ h₃ ih =>
      obtain ⟨s, hs, he⟩ := Option.map_eq_some_iff.1 h
      cases he
      have hclose : t ≠ .groupClose := by
        rintro rfl
        cases depth with
        | zero => exact h₁ rfl rfl
        | succ d => exact h₂ d rfl rfl
      rw [depth?, Token.depth?_of_ne h₃ hclose]
      exact ih hs
  · rintro ⟨rfl, h⟩
    induction inner generalizing depth with
    | nil => cases h; rfl
    | cons t rest ih =>
      obtain ⟨d, hd, h⟩ := Option.bind_eq_some_iff.1 h
      rw [List.cons_append, splitClose_cons hd, ih h]
      rfl

theorem interior?_eq_some_iff {p inner : Pattern} :
    interior? p = some inner ↔ p = grouped inner ∧ inner.Balanced := by
  constructor
  · intro h
    unfold interior? at h
    split at h
    · rename_i x hx
      cases h
      unfold group? at hx
      split at hx
      · obtain ⟨rfl, hb⟩ := splitClose_eq_some_iff.1 hx
        exact ⟨rfl, hb⟩
      · cases hx
    · cases h
  · rintro ⟨rfl, hb⟩
    have : group? (grouped inner) = some (inner, []) := splitClose_eq_some_iff.2 ⟨rfl, hb⟩
    rw [interior?, this]

/-! ## The `+` outside all groups -/

/-- A run inside `depth` open groups without a `+` outside all groups. -/
def FlatFrom (depth : Nat) (p : Pattern) : Prop :=
  ∀ x y, p = x ++ .union :: y → depth? depth x ≠ some 0

theorem flatFrom_cons {t : Token} {depth d : Nat} {rest : Pattern} (ht : t.depth? depth = some d) :
    FlatFrom depth (t :: rest) ↔ (t = .union → depth ≠ 0) ∧ FlatFrom d rest := by
  constructor
  · intro h
    refine ⟨fun he hd => h [] rest (by rw [he]; rfl) (by rw [hd]; rfl), fun x y hxy hx => ?_⟩
    refine h (t :: x) y (by rw [hxy]; rfl) ?_
    rw [depth?, ht, Option.bind_some, hx]
  · rintro ⟨hu, h⟩ x y hxy hx
    cases x with
    | nil =>
      obtain ⟨rfl, -⟩ := List.cons.inj hxy
      exact hu rfl (Option.some.inj hx)
    | cons s x =>
      obtain ⟨rfl, hrest⟩ := List.cons.inj hxy
      rw [depth?, ht, Option.bind_some] at hx
      exact h x y hrest hx

theorem splitUnion_cons {t : Token} {depth d : Nat} (ht : t.depth? depth = some d)
    (hu : t = .union → depth ≠ 0) (rest : Pattern) :
    splitUnion depth (t :: rest) = (splitUnion d rest).map fun s => (t :: s.1, s.2) := by
  cases t with
  | groupOpen => cases ht; rw [splitUnion]
  | groupClose =>
    cases depth with
    | zero => cases ht
    | succ => cases ht; rw [splitUnion]
  | union => cases ht; rw [splitUnion] <;> simp_all
  | repetition => cases ht; rw [splitUnion] <;> simp
  | atom => cases ht; rw [splitUnion] <;> simp

/-- What stands before the first `+` outside all groups goes to the first part. -/
theorem splitUnion_append {depth d : Nat} {p : Pattern} (hd : depth? depth p = some d)
    (hp : FlatFrom depth p) (rest : Pattern) :
    splitUnion depth (p ++ rest) = (splitUnion d rest).map fun s => (p ++ s.1, s.2) := by
  induction p generalizing depth with
  | nil => cases hd; simp
  | cons t p ih =>
    obtain ⟨e, he, hd⟩ := Option.bind_eq_some_iff.1 hd
    obtain ⟨hu, hp⟩ := (flatFrom_cons he).1 hp
    rw [List.cons_append, splitUnion_cons he hu, ih hd hp, Option.map_map]
    rfl

/-- Balanced parts without a `+` outside groups are the parts that their join is split into. -/
theorem splitUnion_joined {first : Pattern} {others : List Pattern}
    (hf : first.Balanced ∧ first.Flat) (ho : ∀ p ∈ others, p.Balanced ∧ p.Flat) :
    splitUnion 0 (joined first others) = some (first, others) := by
  induction others generalizing first with
  | nil => rw [joined, splitUnion_append hf.1 hf.2]; simp [splitUnion]
  | cons p rest ih =>
    have hrest := ih (ho p List.mem_cons_self) fun q hq => ho q (List.mem_cons_of_mem _ hq)
    rw [joined, splitUnion_append hf.1 hf.2]
    change Option.map _ (splitUnion 0 (.union :: joined p rest)) = _
    rw [splitUnion, hrest]
    simp

/-- The parts of a balanced run are balanced and have no `+` outside groups. -/
theorem parts_of_splitUnion {depth : Nat} {p first : Pattern} {others : List Pattern}
    (h : splitUnion depth p = some (first, others)) (hp : depth? depth p = some 0) :
    (depth? depth first = some 0 ∧ FlatFrom depth first) ∧ ∀ q ∈ others, q.Balanced ∧ q.Flat := by
  induction p generalizing depth first others with
  | nil =>
    cases h
    exact ⟨⟨hp, fun x y hxy => by cases x <;> cases hxy⟩, by simp⟩
  | cons t rest ih =>
    obtain ⟨d, hd, hp⟩ := Option.bind_eq_some_iff.1 hp
    by_cases hu : t = .union ∧ depth = 0
    · obtain ⟨rfl, rfl⟩ := hu
      cases hd
      rw [splitUnion] at h
      obtain ⟨s, hs, he⟩ := Option.map_eq_some_iff.1 h
      cases he
      obtain ⟨hfirst, hothers⟩ := ih hs hp
      refine ⟨⟨rfl, fun x y hxy => by cases x <;> cases hxy⟩, fun q hq => ?_⟩
      rcases List.mem_cons.1 hq with rfl | hq
      · exact hfirst
      · exact hothers q hq
    · have hu' : t = .union → depth ≠ 0 := fun ht hz => hu ⟨ht, hz⟩
      rw [splitUnion_cons hd hu'] at h
      obtain ⟨s, hs, he⟩ := Option.map_eq_some_iff.1 h
      cases he
      obtain ⟨⟨hfirst, hflat⟩, hothers⟩ := ih hs hp
      refine ⟨⟨?_, (flatFrom_cons hd).2 ⟨hu', hflat⟩⟩, hothers⟩
      rw [depth?, hd, Option.bind_some, hfirst]

theorem flat_of_not_mem {p : Pattern} (h : .union ∉ p) : p.Flat := by
  rintro x y rfl
  exact absurd (List.mem_append_right x List.mem_cons_self) h

theorem Flat.append {p q : Pattern} (hp : p.Balanced) (hpf : p.Flat) (hq : q.Flat) :
    (p ++ q).Flat := by
  intro x y hxy hx
  rcases List.append_eq_append_iff.1 hxy with ⟨z, rfl, hz⟩ | ⟨z, rfl, hz⟩
  · refine hq z y hz ?_
    rwa [Balanced, depth?_append_of_eq hp] at hx
  · cases z with
    | nil => exact hq [] y hz.symm rfl
    | cons t z =>
      obtain ⟨rfl, -⟩ := List.cons.inj hz
      exact hpf x z rfl hx

/-- Inside a group no `+` is outside all groups. -/
theorem Balanced.flat_grouped {inner : Pattern} (h : inner.Balanced) :
    (Pattern.grouped inner).Flat := by
  intro x y hxy hx
  cases x with
  | nil => cases hxy
  | cons t x =>
    obtain ⟨rfl, htail⟩ := List.cons.inj hxy
    -- the group is still open after the start of its inside
    have hopen : ∀ e, Pattern.depth? 0 x = some e → False := by
      intro e he
      have := depth?_add he 1
      rw [Nat.zero_add] at this
      change Pattern.depth? 1 x = some 0 at hx
      rw [this] at hx
      cases hx
    rcases List.append_eq_append_iff.1 htail with ⟨z, rfl, hz⟩ | ⟨z, rfl, -⟩
    · cases z with
      | nil => cases hz
      | cons s z =>
        have := congrArg List.length hz
        simp at this
    · rw [Balanced, depth?_append] at h
      obtain ⟨e, he, -⟩ := Option.bind_eq_some_iff.1 h
      exact hopen e he

/-- A balanced run without a `+` outside groups is not split at a `+`. -/
theorem splitUnion_of_flat {p : Pattern} (hb : p.Balanced) (hf : p.Flat) :
    splitUnion 0 p = some (p, []) := by
  simpa [joined] using splitUnion_joined ⟨hb, hf⟩ (List.forall_mem_nil _)

end Pattern

end Acceptor
