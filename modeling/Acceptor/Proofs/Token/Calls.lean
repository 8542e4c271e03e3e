/-
A lexer that is asked again and again, also after a fault and after the end. What one call does is
said by a relation (`Call`), with one case for a blank, a lexeme and each way to fail, and each
invariant is read off it: what is left of the text and the groups that are open stay in line with
the position (`Call.consistent`), a token takes a character at least (`Call.position_lt`), and a
lexer stays at every fault but those of a bracket that is closed (`Call.again`, `Call.behind`). Main
statement: so it is after any number of calls (`calls_consistent`).
-/
import Acceptor.Proofs.Token.Splitting
import Mathlib.Order.Monotone.Basic

namespace Acceptor

open Text

/-- The faults at which a lexer stays: those of lexing but for a bracket that is closed. -/
def SyntaxError.Lasting : SyntaxError → Prop
  | unexpectedChar _ _ => True
  | unmatchedParen _ => True
  | unclosedRange _ => True
  | unclosedSet _ => True
  | unclosedGroup _ => True
  | _ => False

namespace Lexer

variable {l l' : Lexer} {a : Answer} {t : Token} {fault : SyntaxError} {ts : Pattern}
  {text cs after : List Char} {opened : List Nat} {position : Nat}

/-! ## One call -/

/-- What one call does: what it yields, and the lexer after it. -/
inductive Call : Lexer → Answer → Lexer → Prop
  /-- A blank is passed over. -/
  | blank {c : Char} {rest : List Char} {position : Nat} {opened : List Nat} {a : Answer}
      {l : Lexer} (hc : isBlank c = true) (h : Call ⟨rest, position + 1, opened⟩ a l) :
      Call ⟨c :: rest, position, opened⟩ a l
  /-- A lexeme is read as its token. -/
  | token {t : Token} {cs after : List Char} {position : Nat} {opened outer : List Nat}
      (ht : t.Lexeme cs after) (ho : t.opened? position opened = some outer) :
      Call ⟨cs ++ after, position, opened⟩ (.ok (some t)) ⟨after, position + cs.length, outer⟩
  /-- No lexeme starts here. -/
  | malformed {cs : List Char} {position : Nat} {opened : List Nat} {fault : SyntaxError}
      (h : Malformed position cs fault) : Call ⟨cs, position, opened⟩ (.error fault)
        (advance ⟨cs, position, opened⟩ fault.width)
  /-- A `)` closes no group. -/
  | unmatched {rest : List Char} {position : Nat} : Call ⟨')' :: rest, position, []⟩
      (.error (.unmatchedParen position)) ⟨')' :: rest, position, []⟩
  /-- The text ends inside a group. -/
  | unclosed {position oldest : Nat} {opened : List Nat} (h : opened.getLast? = some oldest) :
      Call ⟨[], position, opened⟩ (.error (.unclosedGroup oldest)) ⟨[], position, opened⟩
  /-- The text ends. -/
  | done {position : Nat} : Call ⟨[], position, []⟩ (.ok none) ⟨[], position, []⟩

theorem Call.next_eq (h : Call l a l') : l.next = (a, l') := by
  induction h with
  | blank hc _ ih => rw [next_blank hc, ih]
  | token ht ho => exact next_lexeme ht ho
  | malformed h => exact next_malformed h
  | unmatched => exact next_unmatched
  | unclosed h => simp [next, skipBlanks, advance, h]
  | done => rfl

/-- Every lexer can be asked: one of the cases applies. -/
theorem call_next (l : Lexer) : Call l l.next.1 l.next.2 := by
  obtain ⟨rest, position, opened⟩ := l
  suffices h : ∃ a l', Call ⟨rest, position, opened⟩ a l' by
    obtain ⟨a, l', h⟩ := h
    rw [h.next_eq]
    exact h
  induction rest generalizing position with
  | nil =>
    cases ho : opened.getLast? with
    | none =>
      obtain rfl := List.getLast?_eq_none_iff.1 ho
      exact ⟨_, _, .done⟩
    | some oldest => exact ⟨_, _, .unclosed ho⟩
  | cons c rest ih =>
    cases hc : isBlank c with
    | true =>
      obtain ⟨a, l', h⟩ := ih (position + 1)
      exact ⟨a, l', .blank hc h⟩
    | false =>
      rcases Token.starts_cons hc rest with ⟨t, cs, after, he, ht⟩ | hnone
      · rw [he]
        cases ho : t.opened? position opened with
        | some outer => exact ⟨_, _, .token ht ho⟩
        | none =>
          obtain ⟨rfl, rfl⟩ := Token.opened?_eq_none_iff.1 ho
          obtain rfl : cs = [')'] := ht.eq_chars nofun
          exact ⟨_, _, .unmatched⟩
      · obtain ⟨fault, h⟩ := hnone position
        exact ⟨_, _, .malformed h⟩

/-- The tokens among what a call yields. -/
def tokensOf : Answer → Pattern
  | .ok (some t) => [t]
  | .ok none => []
  | .error _ => []

theorem Call.position_le (h : Call l a l') : l.position ≤ l'.position := by
  induction h with
  | blank _ _ ih => exact Nat.le_of_succ_le ih
  | token => exact Nat.le_add_right _ _
  | malformed => exact Nat.le_add_right _ _
  | unmatched => exact Nat.le_refl _
  | unclosed => exact Nat.le_refl _
  | done => exact Nat.le_refl _

/-- A token takes a character at least. -/
theorem Call.position_lt (h : Call l (.ok (some t)) l') : l.position < l'.position := by
  generalize ha : Except.ok (some t) = a at h
  induction h with
  | blank _ _ ih => exact Nat.lt_of_succ_lt (ih ha)
  | token ht =>
    obtain ⟨c, rest, rfl, -⟩ := ht.exists_cons
    exact Nat.lt_add_of_pos_right (Nat.succ_pos _)
  | malformed => cases ha
  | unmatched => cases ha
  | unclosed => cases ha
  | done => cases ha

/-- At a fault that lasts, a lexer fails again. -/
theorem Call.again (h : Call l (.error fault) l') (hlast : fault.Lasting) :
    Call l' (.error fault) l' := by
  generalize ha : Except.error fault = a at h
  induction h with
  | blank _ _ ih => exact ih ha
  | token => cases ha
  | malformed hm =>
    cases ha
    cases hm with
    | unexpectedChar blank alphanumeric sign =>
      exact .malformed (.unexpectedChar blank alphanumeric sign)
    | unclosedRange hclose => exact .malformed (.unclosedRange hclose)
    | unclosedSet hclose => exact .malformed (.unclosedSet hclose)
    | invalidRange => exact hlast.elim
    | emptySet => exact hlast.elim
  | unmatched => cases ha; exact .unmatched
  | unclosed ho => cases ha; exact .unclosed ho
  | done => cases ha

/-- At the end, a lexer finds the end again. -/
theorem Call.end_again (h : Call l (.ok none) l') : Call l' (.ok none) l' := by
  generalize ha : Except.ok none = a at h
  induction h with
  | blank _ _ ih => exact ih ha
  | token => cases ha
  | malformed => cases ha
  | unmatched => cases ha
  | unclosed => cases ha
  | done => exact .done

/-! ## What holds between calls -/

/-- What holds of a lexer between calls, for the whole text and the tokens that it has yielded: it
stands in the text at its position, and the open groups, innermost first, are those of the tokens
that no `)` has closed, each at the position of its `(`. -/
structure Consistent (text : List Char) (ts : Pattern) (l : Lexer) : Prop where
  position_le : l.position ≤ text.length
  rest_eq : l.rest = text.drop l.position
  decreasing : l.opened.Pairwise (· > ·)
  opened_at : ∀ i ∈ l.opened, i < l.position ∧ text[i]? = some '('
  count_eq : l.opened.length + ts.count .groupClose = ts.count .groupOpen

theorem consistent_ofText (text : String) : Consistent text.toList [] (ofText text) :=
  ⟨Nat.zero_le _, rfl, .nil, List.forall_mem_nil _, rfl⟩

/-- Going on over some characters. -/
theorem Consistent.pass (h : Consistent text ts ⟨cs ++ after, position, opened⟩) :
    Consistent text ts ⟨after, position + cs.length, opened⟩ := by
  have hrest : cs ++ after = text.drop position := h.rest_eq
  have hlen := congrArg List.length hrest
  rw [List.length_append, List.length_drop] at hlen
  have hle : position ≤ text.length := h.position_le
  refine ⟨?_, ?_, h.decreasing, fun i hi => ?_, h.count_eq⟩
  · show position + cs.length ≤ text.length
    omega
  · show after = text.drop (position + cs.length)
    rw [← List.drop_drop, ← hrest, List.drop_left]
  · obtain ⟨hlt, hchar⟩ := h.opened_at i hi
    exact ⟨Nat.lt_add_right _ hlt, hchar⟩

/-- The characters of a bracket are there. -/
theorem width_le_of_malformed (h : Malformed position cs fault) : fault.width ≤ cs.length := by
  cases h with
  | unexpectedChar => exact Nat.zero_le _
  | unclosedRange => exact Nat.zero_le _
  | unclosedSet => exact Nat.zero_le _
  | emptySet => exact Nat.le_add_left _ _
  | invalidRange =>
    rw [SyntaxError.width_invalidRange]
    simp

/-- Going on behind a fault. -/
theorem Consistent.advance {width : Nat} (h : Consistent text ts ⟨cs, position, opened⟩)
    (hwidth : width ≤ cs.length) :
    Consistent text ts (advance ⟨cs, position, opened⟩ width) := by
  rw [← List.take_append_drop width cs] at h
  have hpass := h.pass
  rwa [List.length_take_of_le hwidth] at hpass

/-- Reading a token opens or closes its group. -/
theorem Consistent.token {outer : List Nat} (h : Consistent text ts ⟨cs ++ after, position, opened⟩)
    (ht : t.Lexeme cs after) (ho : t.opened? position opened = some outer) :
    Consistent text (ts ++ [t]) ⟨after, position + cs.length, outer⟩ := by
  obtain ⟨hle, hrest, hdecreasing, hopened, hcount⟩ := h.pass
  cases t with
  | groupOpen =>
    cases ho
    obtain rfl : cs = ['('] := ht.eq_chars nofun
    have hchar : text[position]? = some '(' := by
      rw [← List.head?_drop, ← h.rest_eq]
      rfl
    refine ⟨hle, hrest, ?_, ?_, ?_⟩
    · exact List.pairwise_cons.2 ⟨fun i hi => (h.opened_at i hi).1, hdecreasing⟩
    · exact List.forall_mem_cons.2 ⟨⟨Nat.lt_succ_self _, hchar⟩, hopened⟩
    · simp only [List.length_cons, List.count_append] at hcount ⊢
      simp
      omega
  | groupClose =>
    cases opened with
    | nil => cases ho
    | cons i opened =>
      cases ho
      refine ⟨hle, hrest, hdecreasing.tail, (List.forall_mem_cons.1 hopened).2, ?_⟩
      simp only [List.length_cons, List.count_append] at hcount ⊢
      simp
      omega
  | union =>
    cases ho
    exact ⟨hle, hrest, hdecreasing, hopened, by simpa using hcount⟩
  | repetition =>
    cases ho
    exact ⟨hle, hrest, hdecreasing, hopened, by simpa using hcount⟩
  | atom =>
    cases ho
    exact ⟨hle, hrest, hdecreasing, hopened, by simpa using hcount⟩

/-- One call keeps a lexer in line with its text. -/
theorem Call.consistent (hcall : Call l a l') (h : Consistent text ts l) :
    Consistent text (ts ++ tokensOf a) l' := by
  induction hcall with
  | blank _ _ ih => exact ih (h.advance (Nat.le_add_left 1 _))
  | token ht ho => exact h.token ht ho
  | malformed hm =>
    rw [tokensOf, List.append_nil]
    exact h.advance (width_le_of_malformed hm)
  | unmatched => rwa [tokensOf, List.append_nil]
  | unclosed => rwa [tokensOf, List.append_nil]
  | done => rwa [tokensOf, List.append_nil]

/-- The lexer stands right behind the first closing bracket after an opening one at a position. -/
def Behind (text : List Char) (opening closing : Char) (start : Nat) (l : Lexer) : Prop :=
  ∃ inner, closing ∉ inner ∧ text.drop start = opening :: inner ++ closing :: l.rest ∧
    l.position = start + inner.length + 2

/-- Where a fault does not last, a bracket was taken and the lexer is right behind it. -/
theorem Call.behind (hcall : Call l (.error fault) l') (h : Consistent text ts l) :
    fault.Lasting ∨ (∃ read start, fault = .invalidRange read start ∧ l.position ≤ start ∧
        l'.Behind text '[' ']' start) ∨
      ∃ start, fault = .emptySet start ∧ l.position ≤ start ∧ l'.Behind text '{' '}' start := by
  generalize ha : Except.error fault = a at hcall
  induction hcall with
  | blank _ _ ih =>
    rcases ih (h.advance (Nat.le_add_left 1 _)) ha with
      hlast | ⟨read, start, he, hle, hbehind⟩ | ⟨start, he, hle, hbehind⟩
    · exact .inl hlast
    · exact .inr (.inl ⟨read, start, he, Nat.le_of_succ_le hle, hbehind⟩)
    · exact .inr (.inr ⟨start, he, Nat.le_of_succ_le hle, hbehind⟩)
  | token => cases ha
  | @malformed cs position opened fault hm =>
    cases ha
    have hrest : cs = text.drop position := h.rest_eq
    cases hm with
    | unexpectedChar => exact .inl trivial
    | unclosedRange => exact .inl trivial
    | unclosedSet => exact .inl trivial
    | @invalidRange inner after first =>
      refine .inr (.inl ⟨_, position, rfl, Nat.le_refl _, inner, first, ?_, ?_⟩)
      · rw [SyntaxError.width_invalidRange, ← hrest]
        simp [Lexer.advance]
      · rw [SyntaxError.width_invalidRange]
        rfl
    | @emptySet after =>
      exact .inr (.inr ⟨position, rfl, Nat.le_refl _, [], List.not_mem_nil, hrest.symm, rfl⟩)
  | unmatched => cases ha; exact .inl trivial
  | unclosed => cases ha; exact .inl trivial
  | done => cases ha

/-! ## Many calls -/

/-- The lexer after some calls. -/
def afterCalls (l : Lexer) : Nat → Lexer
  | 0 => l
  | n + 1 => (l.afterCalls n).next.2

/-- What the call after `n` others yields. -/
def answer (l : Lexer) (n : Nat) : Answer :=
  (l.afterCalls n).next.1

/-- The tokens that the first `n` calls yield. -/
def yielded (l : Lexer) (n : Nat) : Pattern :=
  (List.range n).flatMap fun k => tokensOf (l.answer k)

theorem call_answer (l : Lexer) (n : Nat) :
    Call (l.afterCalls n) (l.answer n) (l.afterCalls (n + 1)) :=
  call_next _

theorem consistent_afterCalls (text : String) (n : Nat) :
    Consistent text.toList ((ofText text).yielded n) ((ofText text).afterCalls n) := by
  induction n with
  | zero => exact consistent_ofText text
  | succ n ih =>
    have h := (call_answer (ofText text) n).consistent ih
    rwa [yielded, List.range_succ, List.flatMap_append, List.flatMap_singleton]

/-- Where a call leaves the lexer so that it is answered the same again, it is so from then on. -/
theorem answer_eq_of_again {n : Nat} (hn : l.answer n = a)
    (h : Call (l.afterCalls (n + 1)) a (l.afterCalls (n + 1))) {k : Nat} (hk : n ≤ k) :
    l.answer k = a := by
  have hstay : ∀ d, l.afterCalls (n + 1 + d) = l.afterCalls (n + 1) := by
    intro d
    induction d with
    | zero => rfl
    | succ d ih => rw [← Nat.add_assoc, afterCalls, ih, h.next_eq]
  rcases Nat.eq_or_lt_of_le hk with rfl | hlt
  · exact hn
  · obtain ⟨d, rfl⟩ := Nat.exists_eq_add_of_le hlt
    rw [answer, hstay, h.next_eq]

/-- After any number of calls a lexer stands in its text at a position that no call lowers and each
token raises. The groups that are open are those of the tokens that it has yielded, each at an
earlier position that holds a `(`. A fault that lasts is the answer to every further call, and so is
the end. After any other fault the next call goes on right behind the bracket that was read. -/
theorem calls_consistent (text : String) (n : Nat) : let l := ofText text
    Consistent text.toList (l.yielded n) (l.afterCalls n) ∧
    (∀ m ≤ n, (l.afterCalls m).position ≤ (l.afterCalls n).position) ∧
    (∀ t, l.answer n = .ok (some t) →
      (l.afterCalls n).position < (l.afterCalls (n + 1)).position) ∧
    (l.answer n = .ok none → ∀ k ≥ n, l.answer k = .ok none) ∧
    ∀ fault, l.answer n = .error fault →
      fault.Lasting ∧ (∀ k ≥ n, l.answer k = .error fault) ∨
      (∃ read start, fault = .invalidRange read start ∧ (l.afterCalls n).position ≤ start ∧
        (l.afterCalls (n + 1)).Behind text.toList '[' ']' start) ∨
      ∃ start, fault = .emptySet start ∧ (l.afterCalls n).position ≤ start ∧
        (l.afterCalls (n + 1)).Behind text.toList '{' '}' start := by
  intro l
  have hcall := call_answer l n
  have hconsistent : Consistent text.toList (l.yielded n) (l.afterCalls n) :=
    consistent_afterCalls text n
  have hmono : Monotone fun m => (l.afterCalls m).position :=
    monotone_nat_of_le_succ fun m => (call_answer l m).position_le
  refine ⟨hconsistent, fun m hm => hmono hm, fun t ht => ?_, fun hend k hk => ?_,
    fun fault hfault => ?_⟩
  · rw [ht] at hcall
    exact hcall.position_lt
  · rw [hend] at hcall
    exact answer_eq_of_again hend hcall.end_again hk
  · rw [hfault] at hcall
    rcases hcall.behind hconsistent with hlast | hbehind
    · exact .inl ⟨hlast, fun k hk => answer_eq_of_again hfault (hcall.again hlast) hk⟩
    · exact .inr hbehind

-- lexing goes on behind a bracket that is no range
example : (ofText "[a]b").answer 1 = .ok (some (.atom (.literal 'b'))) := rfl

end Lexer

end Acceptor
