/-
Intervals of characters. Characters are the Unicode scalar values, so U+E000 follows U+D7FF
directly. Main statements: `next?` steps to the least larger character (`le_of_next?`), which only
the last one lacks (`next?_eq_none_iff`).
-/

namespace Acceptor

/-- The largest character. -/
def lastChar : Char := Char.ofNat 0x10FFFF

/-- The next character, if there is one. -/
def next? (c : Char) : Option Char :=
  if c = lastChar then none
  else if c = '\uD7FF' then some '\uE000'
  else some (Char.ofNat (c.toNat + 1))

/-- The character just before one that is not the first. -/
def previous (c : Char) : Char :=
  if c = '\uE000' then '\uD7FF' else Char.ofNat (c.toNat - 1)

theorem toNat_lastChar : lastChar.toNat = 0x10FFFF := by decide

theorem toNat_ofNat_of_isValidChar {n : Nat} (h : n.isValidChar) : (Char.ofNat n).toNat = n := by
  rw [Char.ofNat, dif_pos h]
  rfl

theorem toNat_isValidChar (c : Char) :
    c.toNat < 0xD800 ∨ 0xDFFF < c.toNat ∧ c.toNat < 0x110000 :=
  c.valid

theorem toNat_of_next? {c d : Char} (h : next? c = some d) :
    d.toNat = if c.toNat = 0xD7FF then 0xE000 else c.toNat + 1 := by
  unfold next? at h
  split at h
  · cases h
  · rename_i hlast
    have hc : c.toNat ≠ 0x10FFFF := fun he =>
      hlast (Char.toNat_inj.1 (he.trans toNat_lastChar.symm))
    split at h
    · rename_i hgap
      cases h
      subst hgap
      decide
    · rename_i hgap
      have hg : c.toNat ≠ 0xD7FF := fun he => hgap (Char.toNat_inj.1 he)
      cases h
      rw [if_neg hg, toNat_ofNat_of_isValidChar]
      have := toNat_isValidChar c
      simp only [Nat.isValidChar]
      omega

/-- Only the last character has no next one. -/
theorem next?_eq_none_iff {c : Char} : next? c = none ↔ c = lastChar := by
  unfold next?
  split
  · simp_all
  · split <;> simp_all

/-- The next character is the least of the larger ones. -/
theorem le_of_next? {c d : Char} (h : next? c = some d) {e : Char} : d ≤ e ↔ c < e := by
  have hd := toNat_of_next? h
  have he := toNat_isValidChar e
  have hc := toNat_isValidChar c
  change d.toNat ≤ e.toNat ↔ c.toNat < e.toNat
  rw [hd]
  split <;> omega

/-- The characters from `lo` to `hi`, both included; none when `hi < lo`. -/
structure Interval where
  lo : Char
  hi : Char
deriving DecidableEq

namespace Interval

/-- The interval of a single character. -/
def single (c : Char) : Interval := ⟨c, c⟩

/-- Whether a character lies in the interval. -/
def contains (i : Interval) (c : Char) : Bool :=
  i.lo ≤ c && c ≤ i.hi

/-- Ordered by the lower end first, then by the upper end. -/
def notAfter (i j : Interval) : Bool :=
  i.lo < j.lo || i.lo = j.lo && i.hi ≤ j.hi

theorem contains_eq_true_iff {i : Interval} {c : Char} :
    i.contains c = true ↔ i.lo ≤ c ∧ c ≤ i.hi := by
  simp [contains]

@[simp] theorem contains_single {c d : Char} : (single c).contains d = true ↔ c = d := by
  rw [contains_eq_true_iff]
  exact ⟨fun h => Char.le_antisymm h.1 h.2, fun h => h ▸ ⟨Char.le_refl c, Char.le_refl c⟩⟩

end Interval

end Acceptor
