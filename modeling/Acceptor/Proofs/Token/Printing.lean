/-
The text of a pattern read again. Without the blanks the lexemes of an expression stand side by
side, and are read as before, but for one clash: the letters of the word `epsilon` as literals one
after the other read as the word. Main statement: the text of a pattern reads as the pattern with
each such run put together (`Pattern.splits_fused`), so as the pattern itself exactly where there is
none (`Pattern.ofText_text_eq_iff`).
-/
import Acceptor.Proofs.Outcome
import Acceptor.Proofs.Token.Reading

namespace Acceptor.Pattern

open Text

variable {p : Pattern} {t : Token} {cs : List Char} {c : Char}

/-- Literals one after the other. -/
def literals (cs : List Char) : Pattern :=
  cs.map fun c => .atom (.literal c)

/-- A pattern where the word for reading nothing stands in place of its letters. -/
def fused : Pattern → Pattern
  | [] => []
  | t :: rest =>
    if (literals Label.epsilonWord).isPrefixOf (t :: rest) then
      .atom .epsilon :: fused (rest.drop 6)
    else t :: fused rest
termination_by p => p.length
decreasing_by
  · simp only [List.length_drop, List.length_cons]
    omega
  · simp

/-- A token whose text starts with a letter or digit other than `ε` is that literal. -/
theorem eq_literal_of_chars {rest after : List Char} (hl : ∀ l, t = .atom l → l.Lexical)
    (hc : (Label.literal c).Lexical) (h : t.chars ++ after = c :: rest) :
    t = .atom (.literal c) ∧ after = rest := by
  have hsign : c ∉ signs := not_mem_signs_of_isAlphanumeric hc.1
  cases t with
  | groupOpen => cases h; exact absurd (by decide) hsign
  | groupClose => cases h; exact absurd (by decide) hsign
  | union => cases h; exact absurd (by decide) hsign
  | repetition r => cases r <;> (cases h; exact absurd (by decide) hsign)
  | atom l =>
    cases l with
    | epsilon => cases h; exact absurd rfl hc.2
    | any => cases h; exact absurd (by decide) hsign
    | literal d => cases h; exact ⟨rfl, rfl⟩
    | range => cases h; exact absurd (by decide) hsign
    | oneOf => cases h; exact absurd (by decide) hsign
    | noneOf => exact (hl _ rfl).elim

/-- Where the text of a pattern starts with letters, so does the pattern. -/
theorem literals_isPrefix (hp : ∀ l, .atom l ∈ p → l.Lexical)
    (hcs : ∀ c ∈ cs, (Label.literal c).Lexical) (h : cs <+: p.chars) : literals cs <+: p := by
  induction cs generalizing p with
  | nil => exact List.nil_prefix
  | cons c cs ih =>
    obtain ⟨after, h⟩ := h
    cases p with
    | nil => cases h
    | cons t p =>
      have hchars : t.chars ++ chars p = c :: (cs ++ after) := h.symm
      obtain ⟨rfl, hrest⟩ := eq_literal_of_chars
        (fun l hl => hp l (hl ▸ List.mem_cons_self)) (hcs c List.mem_cons_self) hchars
      have hprefix : literals cs <+: p := ih (fun l hl => hp l (List.mem_cons_of_mem _ hl))
        (fun d hd => hcs d (List.mem_cons_of_mem _ hd)) ⟨after, hrest.symm⟩
      exact List.cons_prefix_cons.2 ⟨rfl, hprefix⟩

theorem lexical_of_mem_epsilonWord : ∀ c ∈ Label.epsilonWord, (Label.literal c).Lexical := by
  have hall : Label.epsilonWord.all
      (fun c => isAlphanumeric c && c ≠ Label.epsilonChar) = true := by decide +kernel
  intro c hc
  simpa [Label.Lexical] using List.all_eq_true.1 hall c hc

/-- The text of a pattern splits into the pattern with the word in place of its letters. -/
theorem splits_fused (hp : ∀ l, .atom l ∈ p → l.Lexical) : Splits p.chars p.fused [] := by
  fun_induction fused p with
  | case1 => exact .done
  | case2 t rest hword ih =>
    obtain ⟨tail, htail⟩ := List.isPrefixOf_iff_prefix.1 hword
    cases htail
    have htail := ih fun l hl => hp l (List.mem_cons_of_mem _ (List.mem_of_mem_drop hl))
    have hlexeme : Token.Lexeme (.atom .epsilon) Label.epsilonWord (chars tail) :=
      ⟨.inr ⟨rfl, rfl⟩, nofun, by simp [Label.Lexical]⟩
    have hsplit : Splits (Label.epsilonWord ++ chars tail) (.atom .epsilon :: fused tail) [] :=
      .lexeme hlexeme htail
    exact hsplit
  | case3 t rest hword ih =>
    have hrest := ih fun l hl => hp l (List.mem_cons_of_mem _ hl)
    refine .lexeme ⟨.inl rfl, fun _ hprefix => hword ?_, fun l hl => hp l (hl ▸ List.mem_cons_self)⟩
      hrest
    exact List.isPrefixOf_iff_prefix.2 (literals_isPrefix hp lexical_of_mem_epsilonWord hprefix)

theorem depth?_fused (d : Nat) : depth? d p.fused = depth? d p := by
  fun_induction fused p generalizing d with
  | case1 => rfl
  | case2 t rest hword ih =>
    obtain ⟨tail, htail⟩ := List.isPrefixOf_iff_prefix.1 hword
    cases htail
    exact ih d
  | case3 t rest hword ih => exact Option.bind_congr fun e _ => ih e

/-- Letters that are put together make a pattern shorter. -/
theorem length_fused (p : Pattern) : p.fused.length ≤ p.length ∧
    (literals Label.epsilonWord <:+: p → p.fused.length < p.length) := by
  fun_induction fused p with
  | case1 => exact ⟨Nat.le_refl _, fun h => absurd (List.infix_nil.1 h) nofun⟩
  | case2 t rest hword ih =>
    obtain ⟨tail, htail⟩ := List.isPrefixOf_iff_prefix.1 hword
    cases htail
    have hlt : (Token.atom .epsilon :: fused tail).length <
        (literals Label.epsilonWord ++ tail).length := by
      have hle : (fused tail).length ≤ tail.length := ih.1
      have hseven : (literals Label.epsilonWord).length = 7 := rfl
      rw [List.length_cons, List.length_append, hseven]
      omega
    exact ⟨Nat.le_of_lt hlt, fun _ => hlt⟩
  | case3 t rest hword ih =>
    refine ⟨Nat.succ_le_succ ih.1, fun h => ?_⟩
    rcases List.infix_cons_iff.1 h with hprefix | hinfix
    · exact absurd (List.isPrefixOf_iff_prefix.2 hprefix) hword
    · exact Nat.succ_lt_succ (ih.2 hinfix)

theorem fused_eq_iff : p.fused = p ↔ ¬ literals Label.epsilonWord <:+: p := by
  constructor
  · intro h hword
    have := (length_fused p).2 hword
    rw [h] at this
    exact Nat.lt_irrefl _ this
  · intro h
    fun_induction fused p with
    | case1 => rfl
    | case2 t rest hword => exact absurd (List.isPrefixOf_iff_prefix.1 hword).isInfix h
    | case3 t rest _ ih => rw [ih fun hrest => h (hrest.trans (List.suffix_cons t rest).isInfix)]

/-- What splits into literals are their letters with blanks between them. -/
theorem filter_of_splits {text rest : List Char} (h : Splits text (literals cs) rest) :
    ∃ w, text = w ++ rest ∧ w.filter (!isBlank ·) = cs := by
  generalize hts : literals cs = ts at h
  induction h generalizing cs with
  | done =>
    cases cs with
    | nil => exact ⟨[], rfl, rfl⟩
    | cons => cases hts
  | @blank c text rest ts hc _ ih =>
    obtain ⟨w, rfl, hw⟩ := ih hts
    exact ⟨c :: w, rfl, by rw [List.filter_cons_of_neg (by simp [hc]), hw]⟩
  | lexeme ht _ ih =>
    cases cs with
    | nil => cases hts
    | cons c cs =>
      obtain ⟨rfl, htail⟩ := List.cons.inj hts
      obtain ⟨w, rfl, hw⟩ := ih htail
      have hc := not_isBlank_of_isAlphanumeric (ht.lexical _ rfl).1
      obtain rfl := ht.eq_chars (by simp)
      exact ⟨c :: w, rfl, by rw [List.filter_cons_of_pos (by simp [hc]), hw]⟩

/-- The text of a pattern reads again, with the word for reading nothing in place of its letters.
This is the pattern itself exactly where the pattern does not hold these letters as literals one
after the other. Wherever it does, the expression that it comes from has a blank between the first
and the last of them. -/
theorem ofText_text_eq_iff {s : String} {p : Pattern} (h : Token.ofText s = .ok p) :
    Token.ofText p.text = .ok p.fused ∧ (p.fused = p ↔ ¬ literals "epsilon".toList <:+: p) ∧
    ∀ x y, p = x ++ literals "epsilon".toList ++ y → ∃ middle after,
      Splits s.toList x ('e' :: middle ++ 'n' :: after) ∧ Splits after y [] ∧
      middle.filter (!isBlank ·) = "psilo".toList ∧ ∃ c ∈ middle, isBlank c = true := by
  obtain ⟨hsplit, hb⟩ := Token.ofText_eq_ok_iff.1 h
  refine ⟨Token.ofText_of_splits ?_ ?_, fused_eq_iff, ?_⟩
  · rw [text, String.toList_ofList]
    exact splits_fused fun l hl => hsplit.lexical hl
  · rw [Balanced, depth?_fused]
    exact hb
  · rintro x y rfl
    have hword : x ++ literals "epsilon".toList ++ y = x ++ .atom (.literal 'e') ::
        (literals "psilo".toList ++ .atom (.literal 'n') :: y) := by
      rw [List.append_assoc]
      rfl
    rw [hword] at hsplit
    obtain ⟨cs, text, hx, he, htext⟩ := hsplit.exists_at
    obtain rfl : cs = ['e'] := he.eq_chars (by simp)
    obtain ⟨cs, after, hmiddle, hn, hy⟩ := htext.exists_at
    obtain rfl : cs = ['n'] := hn.eq_chars (by simp)
    obtain ⟨middle, rfl, hletters⟩ := filter_of_splits hmiddle
    refine ⟨middle, after, hx, hy, hletters, ?_⟩
    -- without a blank the word itself would start at the `e`
    by_contra hnone
    push Not at hnone
    rw [List.filter_eq_self.2 (by simpa using hnone)] at hletters
    exact he.keyword rfl ⟨after, by rw [hletters]; rfl⟩

/-- Letters with a blank among them, in a group that is repeated. -/
theorem ofText_text_eq_iff_spaced :
    ∃ p : Pattern, Token.ofText "a(ep silon)*" = .ok p ∧
      Token.ofText p.text = .ok p.fused ∧ (p.fused = p ↔ ¬ literals "epsilon".toList <:+: p) ∧
      ∀ x y, p = x ++ literals "epsilon".toList ++ y → ∃ middle after,
        Splits "a(ep silon)*".toList x ('e' :: middle ++ 'n' :: after) ∧ Splits after y [] ∧
        middle.filter (!isBlank ·) = "psilo".toList ∧ ∃ c ∈ middle, isBlank c = true := by
  have hsome : (Token.ofText "a(ep silon)*").toOption.isSome = true := by decide +kernel
  obtain ⟨p, hp⟩ := exists_ok_of_isSome hsome
  exact ⟨p, hp, ofText_text_eq_iff hp⟩

end Acceptor.Pattern
