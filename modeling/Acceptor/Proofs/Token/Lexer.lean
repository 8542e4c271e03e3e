/-
What lexing yields: a run that closes every group that it opens and no other, of atoms that are
told apart by their text and read at least one word (`sound_of_ofText`), or a fault of the text
(`Token.not_internal_of_ofText`).
-/
import Acceptor.Proofs.Pattern.Language
import Acceptor.Proofs.Token.Reading

namespace Acceptor

/-- A label as an expression has it: well formed, and there is a word that it reads. -/
structure Label.Written (l : Label) : Prop where
  wellFormed : l.WellFormed
  nonempty : ∃ w, w ∈ l.language

theorem Label.written_epsilon : Label.epsilon.Written := ⟨trivial, [], rfl⟩

theorem Label.written_of_reads {l : Label} {c : Char} (hl : l.WellFormed) (hc : l.reads c = true) :
    l.Written := by
  refine ⟨hl, [c], (mem_language_iff ?_).2 ⟨c, rfl, hc⟩⟩
  rintro rfl
  cases hc

theorem Label.Lexical.written {l : Label} (h : l.Lexical) : l.Written := by
  cases l with
  | epsilon => exact written_epsilon
  | any => exact written_of_reads (c := 'a') h.wellFormed rfl
  | literal c => exact written_of_reads (c := c) h.wellFormed (decide_eq_true rfl)
  | range lo hi =>
    have hlo : (Label.range lo hi).reads lo = true :=
      Interval.contains_eq_true_iff.2 ⟨Char.le_refl lo, h.1⟩
    exact written_of_reads h.wellFormed hlo
  | oneOf cs =>
    have hhead : (Label.oneOf cs).reads (cs.head h.1) = true := decide_eq_true (List.head_mem h.1)
    exact written_of_reads h.wellFormed hhead
  | noneOf => exact h.elim

/-- The tokens of an expression are balanced, and their labels are told apart by their text and
read something. -/
theorem sound_of_ofText {text : String} {p : Pattern} (h : Token.ofText text = .ok p) :
    p.Sound Label.Written := by
  obtain ⟨hsplit, hb⟩ := Token.ofText_eq_ok_iff.1 h
  exact ⟨hb, fun l hl => (hsplit.lexical hl).written⟩

/-- A fault of taking a run apart that is no fault of an expression. -/
def SyntaxError.Internal : SyntaxError → Prop
  | undecomposable _ => True
  | overclosed => True
  | _ => False

theorem Faulty.not_internal {text : List Char} {cause : SyntaxError} (h : Faulty text cause) :
    ¬ cause.Internal := by
  cases h with
  | malformed _ _ here => cases here <;> exact id
  | unmatchedParen => exact id
  | unclosedGroup => exact id

/-- A fault of lexing is a fault of the expression. -/
theorem Token.not_internal_of_ofText {text : String} {cause : SyntaxError}
    (h : Token.ofText text = .error cause) : ¬ cause.Internal :=
  (faulty_of_ofText h).not_internal

end Acceptor
