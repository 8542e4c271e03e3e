/-
What an expression reads as: the tokens into which it splits, where these close every group that
they open and no other (`Token.ofText_eq_ok_iff`), and else the first fault in it (`Faulty`). Main
statements: the lexemes of the tokens make up the expression (`Token.ofText_splits`), and a fault
is reported at its place (`Token.ofText_eq_error_iff`).
-/
import Acceptor.Proofs.Token.Splitting
import Mathlib.Order.Bounds.Basic

namespace Acceptor

open Text

/-- A `(` that no later `)` closes stands at the position. -/
def UnclosedAt (text : List Char) (position : Nat) : Prop :=
  ∃ (before after : List Char) (ts us : Pattern), text = before ++ '(' :: after ∧
    before.length = position ∧ Splits text ts ('(' :: after) ∧ Splits after us [] ∧ ¬ us.Closes

/-- The text is no expression, for the reason that the fault names. What stands before the position
of the fault splits into blanks and lexemes without an unmatched `)`. -/
inductive Faulty : List Char → SyntaxError → Prop
  /-- No lexeme starts at the position. -/
  | malformed {before rest : List Char} {ts : Pattern} {fault : SyntaxError}
      (splits : Splits (before ++ rest) ts rest) (closed : ts.NoUnmatched)
      (here : Malformed before.length rest fault) : Faulty (before ++ rest) fault
  /-- A `)` stands at the position, and every `(` before it is closed before it. -/
  | unmatchedParen {before rest : List Char} {ts : Pattern}
      (splits : Splits (before ++ ')' :: rest) ts (')' :: rest)) (closed : ts.NoUnmatched)
      (all : ∀ x y : Pattern, ts = x ++ .groupOpen :: y → y.Closes) :
      Faulty (before ++ ')' :: rest) (.unmatchedParen before.length)
  /-- The whole text splits so, and the first `(` that is never closed stands at the position. -/
  | unclosedGroup {text : List Char} {ts : Pattern} {position : Nat}
      (splits : Splits text ts []) (closed : ts.NoUnmatched)
      (least : IsLeast {p | UnclosedAt text p} position) :
      Faulty text (.unclosedGroup position)

variable {text before after rest : List Char} {ts us : Pattern} {fault : SyntaxError}

/-! ## The first group that is never closed -/

/-- A split goes on through a `(`. -/
theorem Splits.groupOpen (h : Splits text ts ('(' :: after)) (hafter : Splits after us rest) :
    Splits text (ts ++ .groupOpen :: us) rest := by
  have hopen : Token.groupOpen.Lexeme ['('] after := Token.lexeme_chars nofun nofun
  exact h.append (.lexeme hopen hafter)

theorem UnclosedAt.exists_open {position : Nat} (h : UnclosedAt text position)
    (hts : Splits text ts []) : ∃ x y : Pattern, ts = x ++ .groupOpen :: y ∧ ¬ y.Closes := by
  obtain ⟨before, after, x, y, -, -, hx, hy, hopen⟩ := h
  exact ⟨x, y, hts.unique (hx.groupOpen hy), hopen⟩

/-- After a balanced run a `(` that is never closed is the first such. -/
theorem isLeast_unclosedAt (h : Splits (before ++ '(' :: after) ts ('(' :: after))
    (hb : ts.Balanced) (hafter : Splits after us []) (hopen : ¬ us.Closes) :
    IsLeast {p | UnclosedAt (before ++ '(' :: after) p} before.length := by
  refine ⟨⟨before, after, ts, us, rfl, rfl, h, hafter, hopen⟩, ?_⟩
  rintro p ⟨before', after', ts', us', htext, rfl, h', hafter', hopen'⟩
  by_contra hlt
  have hlen : ('(' :: after).length ≤ after'.length := by
    have := congrArg List.length htext
    simp only [List.length_append, List.length_cons] at this ⊢
    omega
  -- an earlier `(` stands in the balanced run, which closes it
  have hopened : Splits (before ++ '(' :: after) (ts' ++ [.groupOpen]) after' := h'.groupOpen .done
  obtain ⟨vs, rfl, hvs⟩ := hopened.follow h hlen
  rw [List.append_assoc, List.singleton_append] at hb
  refine hopen' ?_
  rw [hafter'.unique (hvs.groupOpen hafter)]
  exact ((Pattern.balanced_iff_closes.1 hb).2 ts' vs rfl).append _

/-- A text that splits with a group open at the end has a first such group, and this is the fault
of the expression. -/
theorem exists_unclosed {d : Nat} (h : Splits text ts [])
    (hd : Pattern.depth? 0 ts = some (d + 1)) : ∃ position,
      IsLeast {p | UnclosedAt text p} position ∧
      Lexer.tokens ⟨text, 0, []⟩ = .error (.unclosedGroup position) := by
  obtain ⟨x, y, rfl, hx, hy⟩ := Pattern.exists_open hd
  obtain ⟨cs, after, hsplit, hlexeme, hafter⟩ := h.exists_at
  obtain rfl : cs = ['('] := hlexeme.eq_chars nofun
  obtain ⟨before, rfl⟩ := hsplit.exists_before
  have hopen : ¬ y.Closes := fun hclosed => by
    rw [Pattern.closes_iff.1 hclosed] at hy
    cases hy
  refine ⟨before.length, isLeast_unclosedAt hsplit hx hafter hopen, ?_⟩
  obtain ⟨opened, ho, hbefore⟩ := hsplit.tokens_before hx
  obtain rfl := List.length_eq_zero_iff.1 ho
  -- the position of the `(` stays at the bottom of the stack
  obtain ⟨position, opened, -, -, hrest⟩ :=
    hafter.tokens_eq (before.length + 1) [] hy [before.length]
  have hend : Lexer.tokens ⟨[], position, opened ++ [before.length]⟩ =
      .error (.unclosedGroup before.length) :=
    Lexer.tokens_of_next_eq_error (by simp [Lexer.next, Lexer.skipBlanks, Lexer.advance])
  rw [List.nil_append, hend] at hrest
  rw [hbefore, Lexer.tokens_lexeme hlexeme rfl]
  change Except.map _ (Except.map _ (Lexer.tokens ⟨after, before.length + 1, [before.length]⟩)) = _
  rw [hrest]
  rfl

/-! ## Both outcomes -/

/-- A text that splits into a balanced run reads as that run. -/
theorem Token.ofText_of_splits {text : String} (h : Splits text.toList ts []) (hb : ts.Balanced) :
    ofText text = .ok ts := by
  obtain ⟨position, opened, -, ho, htokens⟩ := h.tokens_eq 0 [] hb []
  obtain rfl := List.length_eq_zero_iff.1 ho
  refine htokens.trans ?_
  rw [List.nil_append, Lexer.tokens_of_next_eq_end rfl]
  simp [Except.map]

theorem Faulty.tokens_eq (h : Faulty text fault) : Lexer.tokens ⟨text, 0, []⟩ = .error fault := by
  cases h with
  | malformed splits closed here =>
    obtain ⟨d, hd⟩ := Pattern.noUnmatched_iff.1 closed
    obtain ⟨opened, -, htokens⟩ := splits.tokens_before hd
    rw [htokens, Lexer.tokens_malformed here]
    rfl
  | unmatchedParen splits closed all =>
    obtain ⟨opened, ho, htokens⟩ :=
      splits.tokens_before (Pattern.balanced_iff_closes.2 ⟨closed, all⟩)
    obtain rfl := List.length_eq_zero_iff.1 ho
    rw [htokens, Lexer.tokens_of_next_eq_error (congrArg Prod.fst Lexer.next_unmatched)]
    rfl
  | unclosedGroup splits closed least =>
    obtain ⟨d, hd⟩ := Pattern.noUnmatched_iff.1 closed
    cases d with
    | zero =>
      obtain ⟨x, y, he, hopen⟩ := least.1.exists_open splits
      exact absurd ((Pattern.balanced_iff_closes.1 hd).2 x y he) hopen
    | succ d =>
      obtain ⟨position, hleast, htokens⟩ := exists_unclosed splits hd
      rw [htokens, IsLeast.unique hleast least]

/-- Every text splits into a balanced run or is faulty. -/
theorem exists_splits_or_faulty (text : List Char) :
    (∃ ts : Pattern, Splits text ts [] ∧ ts.Balanced) ∨ ∃ fault, Faulty text fault := by
  obtain ⟨ts, rest, h, hrest⟩ := exists_splits text
  cases hd : Pattern.depth? 0 ts with
  | none =>
    obtain ⟨inner, after, rfl, hinner⟩ := Pattern.depth?_eq_none_iff.1 hd
    obtain ⟨cs, tail, hsplit, hlexeme, -⟩ := h.exists_at
    obtain rfl : cs = [')'] := hlexeme.eq_chars nofun
    obtain ⟨before, rfl⟩ := hsplit.exists_before
    obtain ⟨hclosed, hall⟩ := Pattern.balanced_iff_closes.1 hinner
    exact .inr ⟨_, .unmatchedParen hsplit hclosed hall⟩
  | some d =>
    have hclosed := Pattern.noUnmatched_iff.2 ⟨d, hd⟩
    rcases hrest with rfl | hfault
    · cases d with
      | zero => exact .inl ⟨ts, h, hd⟩
      | succ d =>
        obtain ⟨position, hleast, -⟩ := exists_unclosed h hd
        exact .inr ⟨_, .unclosedGroup h hclosed hleast⟩
    · obtain ⟨before, rfl⟩ := h.exists_before
      obtain ⟨fault, hfault⟩ := hfault before.length
      exact .inr ⟨fault, .malformed h hclosed hfault⟩

namespace Token

variable {text : String}

/-- An expression reads as the balanced run into which it splits, and as no other. -/
theorem ofText_eq_ok_iff : ofText text = .ok ts ↔ Splits text.toList ts [] ∧ ts.Balanced := by
  refine ⟨fun h => ?_, fun h => ofText_of_splits h.1 h.2⟩
  rcases exists_splits_or_faulty text.toList with ⟨us, hsplit, hb⟩ | ⟨fault, hfault⟩
  · cases (ofText_of_splits hsplit hb).symm.trans h
    exact ⟨hsplit, hb⟩
  · cases hfault.tokens_eq.symm.trans h

theorem faulty_of_ofText (h : ofText text = .error fault) : Faulty text.toList fault := by
  rcases exists_splits_or_faulty text.toList with ⟨ts, hsplit, hb⟩ | ⟨cause, hcause⟩
  · cases (ofText_of_splits hsplit hb).symm.trans h
  · cases hcause.tokens_eq.symm.trans h
    exact hcause

/-- The lexemes of the tokens of an expression, with blanks between them, make up the expression:
each is the text of its token, or the word for the atom that reads nothing, and no literal is read
where that word starts. The label of each atom is read back from its text. No part from the start
closes more groups than it opens, and all together close as many. Conversely an expression reads as
any tokens of which this holds. -/
theorem ofText_splits (text : String) (ts : Pattern) : ofText text = .ok ts ↔
    Splits text.toList ts [] ∧ (∀ l, .atom l ∈ ts → Label.ofText l.text = .ok l) ∧
      (∀ q, q <+: ts → q.count .groupClose ≤ q.count .groupOpen) ∧
      ts.count .groupClose = ts.count .groupOpen := by
  rw [ofText_eq_ok_iff, Pattern.balanced_iff_count]
  constructor
  · rintro ⟨h, hclosed, hcount⟩
    exact ⟨h, fun l hl => Label.ofText_text (h.lexical hl).wellFormed, hclosed, hcount⟩
  · rintro ⟨h, -, hclosed, hcount⟩
    exact ⟨h, hclosed, hcount⟩

/-- An expression fails to read exactly for the first fault in it, and this is reported at its
place. -/
theorem ofText_eq_error_iff (text : String) (fault : SyntaxError) :
    ofText text = .error fault ↔ Faulty text.toList fault :=
  ⟨faulty_of_ofText, Faulty.tokens_eq⟩

-- brackets hide parentheses, and the first of two open groups is the fault
example : (match ofText "[(-)]((b)" with | .error fault => some fault | .ok _ => none) =
    some (.unclosedGroup 5) := by decide +kernel

end Token

end Acceptor
