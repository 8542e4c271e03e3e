/-
A text as blanks and lexemes in turn. Main statements: a text splits in one way at most
(`Splits.follow`), a lexer reads the tokens of a split one after the other (`Splits.tokens_eq`), and
every text splits up to its end or up to where no lexeme starts (`exists_splits`).
-/
import Acceptor.Proofs.Pattern.Matching
import Acceptor.Proofs.Token.Lexeme

namespace Acceptor

open Text

/-- The text splits into blanks and the lexemes of the tokens, up to the rest. -/
inductive Splits : List Char → Pattern → List Char → Prop
  | done {rest : List Char} : Splits rest [] rest
  | blank {c : Char} {text rest : List Char} {ts : Pattern} (hc : isBlank c = true)
      (h : Splits text ts rest) : Splits (c :: text) ts rest
  | lexeme {t : Token} {cs text rest : List Char} {ts : Pattern} (ht : t.Lexeme cs text)
      (h : Splits text ts rest) : Splits (cs ++ text) (t :: ts) rest

namespace Splits

variable {text middle rest rest' : List Char} {ts us : Pattern} {t : Token}

/-- Each lexeme takes a character at least. -/
theorem length_add_le (h : Splits text ts rest) : rest.length + ts.length ≤ text.length := by
  induction h with
  | done => exact Nat.le_refl _
  | blank _ _ ih =>
    rw [List.length_cons]
    omega
  | lexeme ht _ ih =>
    obtain ⟨c, ds, rfl, -⟩ := ht.exists_cons
    simp only [List.length_append, List.length_cons]
    omega

theorem exists_before (h : Splits text ts rest) : ∃ before, text = before ++ rest := by
  induction h with
  | done => exact ⟨[], rfl⟩
  | blank _ _ ih =>
    obtain ⟨before, rfl⟩ := ih
    exact ⟨_ :: before, rfl⟩
  | @lexeme t cs _ _ _ _ _ ih =>
    obtain ⟨before, rfl⟩ := ih
    exact ⟨cs ++ before, by rw [List.append_assoc]⟩

theorem append (h : Splits text ts middle) (h' : Splits middle us rest) :
    Splits text (ts ++ us) rest := by
  induction h with
  | done => exact h'
  | blank hc _ ih => exact .blank hc (ih h')
  | lexeme ht _ ih => exact .lexeme ht (ih h')

/-- A split goes through the lexeme of each of its tokens. -/
theorem exists_at (h : Splits text (ts ++ t :: us) rest) :
    ∃ cs after, Splits text ts (cs ++ after) ∧ t.Lexeme cs after ∧ Splits after us rest := by
  generalize hts : ts ++ t :: us = vs at h
  induction h generalizing ts with
  | done => cases ts <;> cases hts
  | blank hc _ ih =>
    obtain ⟨cs, after, h, ht, h'⟩ := ih hts
    exact ⟨cs, after, .blank hc h, ht, h'⟩
  | @lexeme v ds text rest vs hv hrest ih =>
    cases ts with
    | nil =>
      cases hts
      exact ⟨ds, text, .done, hv, hrest⟩
    | cons v' ts =>
      obtain ⟨rfl, htail⟩ := List.cons.inj hts
      obtain ⟨cs, after, h, ht, h'⟩ := ih htail
      exact ⟨cs, after, .lexeme hv h, ht, h'⟩

/-- Of two splits of a text the longer one goes on where the shorter one ends. -/
theorem follow (h : Splits text ts rest) (h' : Splits text us rest')
    (hlen : rest'.length ≤ rest.length) : ∃ vs, us = ts ++ vs ∧ Splits rest vs rest' := by
  induction h generalizing us with
  | done => exact ⟨us, rfl, h'⟩
  | @blank c text rest ts hc h ih =>
    generalize htext : c :: text = text' at h'
    cases h' with
    | done =>
      have := h.length_add_le
      rw [← htext, List.length_cons] at hlen
      omega
    | blank _ h' =>
      cases htext
      exact ih h' hlen
    | lexeme hu =>
      obtain ⟨d, ds, rfl, hd⟩ := hu.exists_cons
      cases htext
      rw [hc] at hd
      cases hd
  | @lexeme t cs text rest ts ht h ih =>
    generalize htext : cs ++ text = text' at h'
    obtain ⟨d, ds, hcs, hd⟩ := ht.exists_cons
    cases h' with
    | done =>
      have := h.length_add_le
      rw [← htext, hcs, List.length_append, List.length_cons] at hlen
      omega
    | blank hc =>
      rw [hcs] at htext
      cases htext
      rw [hc] at hd
      cases hd
    | lexeme hu h' =>
      obtain ⟨rfl, rfl⟩ := ht.unique hu htext
      obtain ⟨vs, rfl, hvs⟩ := ih h' hlen
      exact ⟨vs, rfl, hvs⟩

/-- A text splits into one run of tokens up to the same rest. -/
theorem unique (h : Splits text ts rest) (h' : Splits text us rest) : ts = us := by
  obtain ⟨vs, rfl, hvs⟩ := h.follow h' (Nat.le_refl _)
  have hlen := hvs.length_add_le
  rw [List.length_eq_zero_iff.1 (show vs.length = 0 by omega), List.append_nil]

/-- The labels of a split are written. -/
theorem lexical (h : Splits text ts rest) {l : Label} (hl : .atom l ∈ ts) : l.Lexical := by
  obtain ⟨x, y, rfl⟩ := List.append_of_mem hl
  obtain ⟨cs, after, -, hlexeme, -⟩ := h.exists_at
  exact hlexeme.lexical l rfl

/-- Through a split a lexer yields its tokens, and finds their groups on the stack above others
that it leaves alone. -/
theorem tokens_eq (h : Splits text ts rest) (position : Nat) (opened : List Nat) {depth : Nat}
    (hd : Pattern.depth? opened.length ts = some depth) (base : List Nat) :
    ∃ position' opened', position' + rest.length = position + text.length ∧
      opened'.length = depth ∧
      Lexer.tokens ⟨text, position, opened ++ base⟩ =
        (Lexer.tokens ⟨rest, position', opened' ++ base⟩).map (ts ++ ·) := by
  induction h generalizing position opened with
  | done =>
    cases hd
    refine ⟨position, opened, rfl, rfl, ?_⟩
    cases Lexer.tokens _ <;> rfl
  | @blank c text rest ts hc _ ih =>
    obtain ⟨position', opened', hp, ho, htokens⟩ := ih (position + 1) opened hd
    refine ⟨position', opened', ?_, ho, ?_⟩
    · rw [hp, List.length_cons]
      omega
    · rw [Lexer.tokens_blank hc, htokens]
  | @lexeme t cs text rest ts ht _ ih =>
    obtain ⟨e, he, hd⟩ := Option.bind_eq_some_iff.1 hd
    obtain ⟨o, rfl, ho⟩ := Token.exists_opened? he position base
    obtain ⟨position', opened', hp, hlen, htokens⟩ := ih (position + cs.length) o hd
    refine ⟨position', opened', ?_, hlen, ?_⟩
    · rw [hp, List.length_append]
      omega
    · rw [Lexer.tokens_lexeme ht ho, htokens]
      cases Lexer.tokens ⟨rest, position', opened' ++ base⟩ <;> rfl

/-- Up to where its text splits without an unmatched `)`, a lexer yields the tokens. -/
theorem tokens_before {before : List Char} {depth : Nat} (h : Splits (before ++ rest) ts rest)
    (hd : Pattern.depth? 0 ts = some depth) : ∃ opened : List Nat, opened.length = depth ∧
      Lexer.tokens ⟨before ++ rest, 0, []⟩ =
        (Lexer.tokens ⟨rest, before.length, opened⟩).map (ts ++ ·) := by
  obtain ⟨position, opened, hp, ho, htokens⟩ := h.tokens_eq 0 [] hd []
  obtain rfl : position = before.length := by
    rw [List.length_append] at hp
    omega
  simp only [List.append_nil] at htokens
  exact ⟨opened, ho, htokens⟩

end Splits

/-- Every text splits up to its end, or up to where no lexeme starts. -/
theorem exists_splits (text : List Char) : ∃ ts rest, Splits text ts rest ∧
    (rest = [] ∨ Token.StartsNone rest) := by
  induction hlen : text.length using Nat.strong_induction_on generalizing text with
  | _ n ih =>
    cases text with
    | nil => exact ⟨[], [], .done, .inl rfl⟩
    | cons c after =>
      cases hc : isBlank c with
      | true =>
        obtain ⟨ts, rest, h, hrest⟩ := ih after.length (by simp [← hlen]) after rfl
        exact ⟨ts, rest, .blank hc h, hrest⟩
      | false =>
        rcases Token.starts_cons hc after with ⟨t, cs, after', he, ht⟩ | hnone
        · have hlt : after'.length < n := by
            obtain ⟨d, ds, rfl, -⟩ := ht.exists_cons
            rw [← hlen, he]
            simp only [List.length_append, List.length_cons]
            omega
          obtain ⟨ts, rest, h, hrest⟩ := ih after'.length hlt after' rfl
          exact ⟨t :: ts, rest, he ▸ .lexeme ht h, hrest⟩
        · exact ⟨[], c :: after, .done, .inr hnone⟩

end Acceptor
