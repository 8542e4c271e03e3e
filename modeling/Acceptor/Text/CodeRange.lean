/-
Character properties given by ascending ranges of code points. Main statement: a character has
the property exactly when one of the ranges holds its code point (`inRanges_eq_true_iff`).
-/

namespace Acceptor.Text

/-- Whether one of the inclusive ranges holds the code point of the character. -/
def inRanges (ranges : List (Nat × Nat)) (c : Char) : Bool :=
  ranges.any fun r => r.1 ≤ c.toNat && c.toNat ≤ r.2

theorem inRanges_eq_true_iff {ranges : List (Nat × Nat)} {c : Char} :
    inRanges ranges c = true ↔ ∃ r ∈ ranges, r.1 ≤ c.toNat ∧ c.toNat ≤ r.2 := by
  simp [inRanges]

end Acceptor.Text
