/-
Patterns: the token runs that edges carry until they are decomposed, and the ways to take one
apart. Main statements: nothing is lost when a run is split at the `)` that closes it
(`eq_of_splitClose`), at its `+` (`eq_of_splitUnion`) or into its pieces (`flatten_pieces`).
-/
import Acceptor.Token

namespace Acceptor

/-- A run of tokens. -/
abbrev Pattern := List Token

namespace Pattern

/-- The characters of the text of a pattern: that of its tokens, with no blanks. -/
def chars (p : Pattern) : List Char :=
  p.flatMap Token.chars

/-- The text of a pattern. -/
def text (p : Pattern) : String :=
  String.ofList (chars p)

/-- The label of a pattern that is a single atom. -/
def atom? : Pattern → Option Label
  | [.atom label] => some label
  | _ => none

/-! ## Groups -/

/-- Splits a run inside `depth + 1` open groups at the `)` that closes the outermost of them. -/
def splitClose : Nat → Pattern → Option (Pattern × Pattern)
  | _, [] => none
  | 0, .groupClose :: rest => some ([], rest)
  | depth + 1, .groupClose :: rest =>
    (splitClose depth rest).map fun s => (.groupClose :: s.1, s.2)
  | depth, .groupOpen :: rest =>
    (splitClose (depth + 1) rest).map fun s => (.groupOpen :: s.1, s.2)
  | depth, t :: rest => (splitClose depth rest).map fun s => (t :: s.1, s.2)

/-- What is inside the group that a pattern starts with, and what follows the group. -/
def group? : Pattern → Option (Pattern × Pattern)
  | .groupOpen :: rest => splitClose 0 rest
  | _ => none

/-- What is inside the group that makes up the whole pattern. -/
def interior? (p : Pattern) : Option Pattern :=
  match group? p with
  | some (inner, []) => some inner
  | _ => none

theorem eq_of_splitClose {depth : Nat} {p inner after : Pattern}
    (h : splitClose depth p = some (inner, after)) : p = inner ++ .groupClose :: after := by
  fun_induction splitClose depth p generalizing inner with
  | case1 => cases h
  | case2 rest => cases h; rfl
  | case3 depth rest ih =>
    obtain ⟨s, hs, heq⟩ := Option.map_eq_some_iff.1 h
    cases heq
    simp [ih hs]
  | case4 depth rest ih =>
    obtain ⟨s, hs, heq⟩ := Option.map_eq_some_iff.1 h
    cases heq
    simp [ih hs]
  | case5 depth t rest _ _ _ ih =>
    obtain ⟨s, hs, heq⟩ := Option.map_eq_some_iff.1 h
    cases heq
    simp [ih hs]

/-! ## Alternatives -/

/-- Splits a run inside `depth` open groups at each `+` that is in none of them: what stands
before the first one, and the other parts. There is no answer where a `)` closes no group. -/
def splitUnion : Nat → Pattern → Option (Pattern × List Pattern)
  | _, [] => some ([], [])
  | 0, .union :: rest => (splitUnion 0 rest).map fun s => ([], s.1 :: s.2)
  | 0, .groupClose :: _ => none
  | depth + 1, .groupClose :: rest =>
    (splitUnion depth rest).map fun s => (.groupClose :: s.1, s.2)
  | depth, .groupOpen :: rest =>
    (splitUnion (depth + 1) rest).map fun s => (.groupOpen :: s.1, s.2)
  | depth, t :: rest => (splitUnion depth rest).map fun s => (t :: s.1, s.2)

/-- The parts joined by `+` are the run. -/
theorem eq_of_splitUnion {depth : Nat} {p first : Pattern} {others : List Pattern}
    (h : splitUnion depth p = some (first, others)) :
    p = first ++ others.flatMap (.union :: ·) := by
  fun_induction splitUnion depth p generalizing first others with
  | case1 => cases h; rfl
  | case2 rest ih =>
    obtain ⟨s, hs, heq⟩ := Option.map_eq_some_iff.1 h
    cases heq
    simp [ih hs]
  | case3 => cases h
  | case4 depth rest ih =>
    obtain ⟨s, hs, heq⟩ := Option.map_eq_some_iff.1 h
    cases heq
    simp [ih hs]
  | case5 depth rest ih =>
    obtain ⟨s, hs, heq⟩ := Option.map_eq_some_iff.1 h
    cases heq
    simp [ih hs]
  | case6 depth t rest _ _ _ _ ih =>
    obtain ⟨s, hs, heq⟩ := Option.map_eq_some_iff.1 h
    cases heq
    simp [ih hs]

/-- The alternatives of a pattern, where it has a `+` outside all groups. Each must be more than
nothing. -/
def alternatives? (p : Pattern) : Except SyntaxError (Option (List Pattern)) :=
  match splitUnion 0 p with
  | none => .error .overclosed
  | some (_, []) => .ok none
  | some (first, others) =>
    if (first :: others).any List.isEmpty then .error (.emptyAlternative (text p))
    else .ok (some (first :: others))

/-! ## Repetition -/

/-- What a trailing operator applies to: everything before it, which must be more than
nothing. -/
def operand? (p : Pattern) : Except SyntaxError (Option (Pattern × Repetition)) :=
  match p.getLast? with
  | some (.repetition r) =>
    if p.dropLast.isEmpty then .error (.danglingOperator r.char)
    else .ok (some (p.dropLast, r))
  | _ => .ok none

/-! ## Concatenation -/

theorem length_lt_of_splitClose {depth : Nat} {p inner after : Pattern}
    (h : splitClose depth p = some (inner, after)) : after.length < p.length := by
  rw [eq_of_splitClose h]
  simp only [List.length_append, List.length_cons]
  omega

theorem length_dropWhile_le (q : Token → Bool) (p : Pattern) :
    (p.dropWhile q).length ≤ p.length :=
  (List.dropWhile_suffix q).length_le

/-- The pieces from which `whole` is still to be built: each an atom or a group, with the
operators that follow it. -/
def piecesOf (whole : Pattern) (p : Pattern) : Except SyntaxError (List Pattern) :=
  match p with
  | [] => .ok []
  | .atom label :: rest =>
    (piecesOf whole (rest.dropWhile Token.isRepetition)).map
      ((.atom label :: rest.takeWhile Token.isRepetition) :: ·)
  | .groupOpen :: rest =>
    match _h : splitClose 0 rest with
    | none => .error (.undecomposable (text whole))
    | some (inner, after) =>
      (piecesOf whole (after.dropWhile Token.isRepetition)).map
        ((.groupOpen :: inner ++ .groupClose :: after.takeWhile Token.isRepetition) :: ·)
  | .repetition r :: _ => .error (.danglingOperator r.char)
  | .union :: _ => .error (.undecomposable (text whole))
  | .groupClose :: _ => .error (.undecomposable (text whole))
termination_by p.length
decreasing_by
  · exact Nat.lt_succ_of_le (length_dropWhile_le _ _)
  · have := length_lt_of_splitClose _h
    have := length_dropWhile_le Token.isRepetition after
    simp only [List.length_cons]
    omega

/-- The pieces of a pattern: atoms and groups, each with the operators that follow it. -/
def pieces (p : Pattern) : Except SyntaxError (List Pattern) :=
  piecesOf p p

/-- The pieces one after the other are the pattern. -/
theorem flatten_of_piecesOf {whole p : Pattern} {ps : List Pattern}
    (h : piecesOf whole p = .ok ps) : ps.flatten = p := by
  fun_induction piecesOf whole p generalizing ps with
  | case1 => cases h; rfl
  | case2 label rest ih =>
    obtain ⟨qs, hqs, rfl⟩ := map_eq_ok_iff.1 h
    simp [ih hqs, List.takeWhile_append_dropWhile]
  | case3 => cases h
  | case4 rest inner after hsplit ih =>
    obtain ⟨qs, hqs, rfl⟩ := map_eq_ok_iff.1 h
    simp [ih hqs, eq_of_splitClose hsplit, List.takeWhile_append_dropWhile]
  | case5 => cases h
  | case6 => cases h
  | case7 => cases h

theorem flatten_pieces {p : Pattern} {ps : List Pattern} (h : pieces p = .ok ps) :
    ps.flatten = p :=
  flatten_of_piecesOf h

end Pattern

end Acceptor
