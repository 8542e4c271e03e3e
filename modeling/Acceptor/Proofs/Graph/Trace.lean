/-
What a walk through a graph records. From the first start node it follows, character by character,
the first edge that reads the next one (`Trace`), and it stops with the input, where no edge reads
the next character, or where the edge leads out of the graph (`Ends`). Main statements: a walk fails
exactly where a mark is missing or an edge leads out of the graph, and any other walk is a run whose
steps are such a trace and whose outcome tells how it stopped (`walk_records`); the run names the
node where it stopped unless it is accepted without a step (`lastNode?_of_walk`); and a word that a
walk accepts is accepted by the table of the graph (`ofGraph_accepts_of_accepts`).
-/
import Acceptor.Graph.Walk
import Acceptor.Proofs.Graph.Labelled

namespace Acceptor

/-- The node where a walk from a start node stood when it stopped. -/
def Run.standing (r : Run) (start : Nat) : Nat :=
  (r.steps.getLast?.map (·.target)).getD start

/-- The run of some steps and of how they ended: whether this is accepted, and why it is not. -/
def Run.ofEnding (steps : List Step) (ending : Bool × Option Rejection) : Run :=
  ⟨ending.1, steps, ending.2⟩

namespace Graph

variable {g : Graph} {options : WalkOptions} {start i j k position : Nat} {n m : Node} {c : Char}
  {e : Edge} {steps : List Step} {input rest : List Char} {run : Run} {fault : Error}
  {accepted : Bool} {rejection : Option Rejection}
  {outcome : Except Error (Bool × Option Rejection)}

/-! ## Steps in line -/

/-- An edge is the first of a node, in the order of its edges, that reads a character. -/
def Picks (g : Graph) (options : WalkOptions) (i : Nat) (c : Char) (e : Edge) : Prop :=
  ∃ n before after, g.nodes[i]? = some n ∧ n.edges = before ++ e :: after ∧
    e.reads options c = true ∧ ∀ x ∈ before, x.reads options c = false

/-- No edge of a node reads a character. -/
def Blocks (g : Graph) (options : WalkOptions) (i : Nat) (c : Char) : Prop :=
  ∃ n, g.nodes[i]? = some n ∧ ∀ x ∈ n.edges, x.reads options c = false

/-- Steps from one node to another: each starts where the one before it ends and follows the first
edge that reads its character, which leads to a node. -/
inductive Trace (g : Graph) (options : WalkOptions) : Nat → List Step → Nat → Prop
  | nil {i : Nat} : Trace g options i [] i
  | cons {i k : Nat} {c : Char} {e : Edge} {steps : List Step} : g.Picks options i c e →
      e.target < g.size → Trace g options e.target steps k →
      Trace g options i (⟨i, c, e.target⟩ :: steps) k

/-- How a walk ends that stands on a node, where `position` characters are read already, with the
rest of its input. -/
inductive Ends (g : Graph) (options : WalkOptions) (k position : Nat) :
    List Char → Except Error (Bool × Option Rejection) → Prop
  | accepted : g.EndsAt k → Ends g options k position [] (.ok (true, none))
  | notFinal : ¬ g.EndsAt k → Ends g options k position [] (.ok (false, some (.notFinal k)))
  | noTransition {c : Char} {rest : List Char} : g.Blocks options k c →
      Ends g options k position (c :: rest) (.ok (false, some (.noTransition k c position)))
  | astray {c : Char} {e : Edge} {rest : List Char} : g.Picks options k c e → g.size ≤ e.target →
      Ends g options k position (c :: rest) (.error (.unknownState s!"q{e.target}"))

theorem picks_iff (hn : g.nodes[i]? = some n) :
    g.Picks options i c e ↔ n.edges.find? (·.reads options c) = some e := by
  rw [List.find?_eq_some_iff_append]
  constructor
  · rintro ⟨n', before, after, hn', hedges, hreads, hbefore⟩
    cases hn.symm.trans hn'
    exact ⟨hreads, before, after, hedges, fun x hx => by simp [hbefore x hx]⟩
  · rintro ⟨hreads, before, after, hedges, hbefore⟩
    exact ⟨n, before, after, hn, hedges, hreads, fun x hx => by simpa using hbefore x hx⟩

theorem blocks_iff (hn : g.nodes[i]? = some n) :
    g.Blocks options i c ↔ n.edges.find? (·.reads options c) = none := by
  simp [Blocks, hn, List.find?_eq_none]

theorem endsAt_iff (hn : g.nodes[i]? = some n) : g.EndsAt i ↔ n.isFinal = true := by
  simp [EndsAt, hn]

/-- The last step leads to where the walk stands. -/
theorem Trace.standing_eq (h : g.Trace options i steps k) (accepted : Bool)
    (rejection : Option Rejection) : (Run.mk accepted steps rejection).standing i = k := by
  induction h with
  | nil => rfl
  | @cons i k c e steps _ _ _ ih =>
    cases steps with
    | nil => exact ih
    | cons s steps => exact ih

/-! ## Walking on -/

theorem walkFrom_nil (h : g.InPlace) (hn : g.nodes[i]? = some n) (position : Nat) :
    g.walkFrom options n position [] =
      .ok ⟨n.isFinal, [], if n.isFinal then none else some (.notFinal i)⟩ := by
  rw [walkFrom, h.id_eq hn]

theorem walkFrom_of_blocks (h : g.InPlace) (hn : g.nodes[i]? = some n)
    (hblocks : g.Blocks options i c) (position : Nat) (rest : List Char) :
    g.walkFrom options n position (c :: rest) =
      .ok ⟨false, [], some (.noTransition i c position)⟩ := by
  rw [walkFrom, (blocks_iff hn).1 hblocks, h.id_eq hn]

theorem walkFrom_of_astray (hn : g.nodes[i]? = some n) (hpicks : g.Picks options i c e)
    (htarget : g.size ≤ e.target) (position : Nat) (rest : List Char) :
    g.walkFrom options n position (c :: rest) = .error (.unknownState s!"q{e.target}") := by
  rw [walkFrom, (picks_iff hn).1 hpicks]
  simp only [node?, List.getElem?_eq_none htarget]

theorem walkFrom_of_picks (h : g.InPlace) (hn : g.nodes[i]? = some n)
    (hpicks : g.Picks options i c e) (hm : g.nodes[e.target]? = some m) (position : Nat)
    (rest : List Char) : g.walkFrom options n position (c :: rest) =
      (g.walkFrom options m (position + 1) rest).map fun run =>
        { run with steps := ⟨i, c, e.target⟩ :: run.steps } := by
  rw [walkFrom, (picks_iff hn).1 hpicks]
  simp only [node?, hm, h.id_eq hn, h.id_eq hm]

/-- Where a walk ends, nothing more is recorded. -/
theorem Ends.walkFrom_eq (hends : g.Ends options i position rest outcome) (h : g.InPlace)
    (hn : g.nodes[i]? = some n) :
    g.walkFrom options n position rest = outcome.map (.ofEnding []) := by
  cases hends with
  | accepted hfinal =>
    rw [walkFrom_nil h hn, (endsAt_iff hn).1 hfinal]
    rfl
  | notFinal hfinal =>
    rw [walkFrom_nil h hn, Bool.eq_false_iff.2 fun hb => hfinal ((endsAt_iff hn).2 hb)]
    rfl
  | noTransition hblocks => exact walkFrom_of_blocks h hn hblocks position _
  | astray hpicks htarget => exact walkFrom_of_astray hn hpicks htarget position _

/-- A walk records the steps of a trace, and then how it ends. -/
theorem Trace.walkFrom_eq (ht : g.Trace options i steps k) (h : g.InPlace)
    (hn : g.nodes[i]? = some n) (hends : g.Ends options k (position + steps.length) rest outcome) :
    g.walkFrom options n position (steps.map (·.char) ++ rest) =
      outcome.map (.ofEnding steps) := by
  induction ht generalizing n position with
  | nil => exact hends.walkFrom_eq h hn
  | @cons i k c e steps hpicks htarget _ ih =>
    have hm : g.nodes[e.target]? = some g.nodes[e.target] := List.getElem?_eq_getElem htarget
    rw [List.length_cons, Nat.add_comm steps.length, ← Nat.add_assoc] at hends
    rw [List.map_cons, List.cons_append, walkFrom_of_picks h hn hpicks hm, ih hm hends]
    cases outcome <;> rfl

/-- Every input has a trace, up to where the walk ends. -/
theorem exists_trace (g : Graph) (options : WalkOptions) (hi : i < g.size) (position : Nat)
    (input : List Char) : ∃ steps k rest outcome, input = steps.map (·.char) ++ rest ∧
      g.Trace options i steps k ∧ g.Ends options k (position + steps.length) rest outcome := by
  induction input generalizing i position with
  | nil =>
    by_cases hfinal : g.EndsAt i
    · exact ⟨[], i, [], _, rfl, .nil, .accepted hfinal⟩
    · exact ⟨[], i, [], _, rfl, .nil, .notFinal hfinal⟩
  | cons c input ih =>
    have hn : g.nodes[i]? = some g.nodes[i] := List.getElem?_eq_getElem hi
    cases hfind : g.nodes[i].edges.find? (·.reads options c) with
    | none => exact ⟨[], i, c :: input, _, rfl, .nil, .noTransition ((blocks_iff hn).2 hfind)⟩
    | some e =>
      have hpicks := (picks_iff hn).2 hfind
      by_cases htarget : e.target < g.size
      · obtain ⟨steps, k, rest, outcome, rfl, ht, hends⟩ := ih htarget (position + 1)
        rw [Nat.add_assoc, Nat.add_comm 1] at hends
        exact ⟨_, k, rest, outcome, rfl, .cons hpicks htarget ht, hends⟩
      · exact ⟨[], i, c :: input, _, rfl, .nil, .astray hpicks (Nat.not_lt.1 htarget)⟩

/-! ## Runs -/

/-- What a run records of a walk from a start node: its steps, which read a start of the input, and
how the walk ended on the node where it stood. -/
structure Records (g : Graph) (options : WalkOptions) (start : Nat) (input : List Char)
    (run : Run) : Prop where
  trace : g.Trace options start run.steps (run.standing start)
  chars : run.steps.map (·.char) <+: input
  accepted_iff : run.accepted = true ↔ run.rejection = none
  rejection_eq_none_iff : run.rejection = none ↔
    run.steps.map (·.char) = input ∧ g.EndsAt (run.standing start)
  noTransition_iff : ∀ node c position, run.rejection = some (.noTransition node c position) ↔
    node = run.standing start ∧ position = run.steps.length ∧ input[position]? = some c ∧
      g.Blocks options node c
  notFinal_iff : ∀ node, run.rejection = some (.notFinal node) ↔
    node = run.standing start ∧ run.steps.map (·.char) = input ∧ ¬ g.EndsAt node

/-- A walk from a start node follows an edge that leads out of the graph. -/
def Strays (g : Graph) (options : WalkOptions) (start : Nat) (input : List Char)
    (fault : Error) : Prop :=
  ∃ steps k c rest e, input = steps.map (·.char) ++ c :: rest ∧ g.Trace options start steps k ∧
    g.Picks options k c e ∧ g.size ≤ e.target ∧ fault = .unknownState s!"q{e.target}"

/-- A trace with the way it ends is a run. -/
theorem Trace.records (ht : g.Trace options start steps k)
    (hends : g.Ends options k steps.length rest (.ok (accepted, rejection))) :
    g.Records options start (steps.map (·.char) ++ rest) ⟨accepted, steps, rejection⟩ := by
  have hstanding := ht.standing_eq accepted rejection
  have hnext : (steps.map (·.char) ++ rest)[steps.length]? = rest.head? := by
    rw [List.getElem?_append_right (by simp), List.length_map, Nat.sub_self, List.head?_eq_getElem?]
  refine ⟨hstanding ▸ ht, List.prefix_append _ _, ?_, ?_, fun node c position => ?_,
    fun node => ?_⟩
  · cases hends with
    | accepted => exact iff_of_true rfl rfl
    | notFinal => exact iff_of_false Bool.false_ne_true nofun
    | noTransition => exact iff_of_false Bool.false_ne_true nofun
  all_goals rw [hstanding]
  · cases hends with
    | accepted hfinal => simp [hfinal]
    | notFinal hfinal => simp [hfinal]
    | noTransition => simp
  · constructor
    · rintro rfl
      cases hends with
      | noTransition hblocks => exact ⟨rfl, rfl, hnext, hblocks⟩
    · rintro ⟨rfl, rfl, hc, -⟩
      cases hends with
      | accepted => simp at hc
      | notFinal => simp at hc
      | noTransition =>
        cases hnext.symm.trans hc
        rfl
  · constructor
    · rintro rfl
      cases hends with
      | notFinal hfinal => exact ⟨rfl, List.append_nil _ |>.symm, hfinal⟩
    · rintro ⟨rfl, hread, hfinal⟩
      cases hends with
      | accepted h => exact absurd h hfinal
      | notFinal => rfl
      | noTransition => simp at hread

/-- What a run records is a trace with the way it ends. -/
theorem Records.exists_ends (h : g.Records options start input run) :
    ∃ rest, input = run.steps.map (·.char) ++ rest ∧
      g.Ends options (run.standing start) run.steps.length rest
        (.ok (run.accepted, run.rejection)) := by
  obtain ⟨rest, hrest⟩ := h.chars
  refine ⟨rest, hrest.symm, ?_⟩
  have hall : run.steps.map (·.char) = input → rest = [] := by
    intro hread
    simpa [hread] using hrest
  cases hout : run.rejection with
  | none =>
    obtain ⟨hread, hfinal⟩ := h.rejection_eq_none_iff.1 hout
    rw [h.accepted_iff.2 hout, hall hread]
    exact .accepted hfinal
  | some rejection =>
    have hnot : run.accepted = false := by
      rw [Bool.eq_false_iff, Ne, h.accepted_iff, hout]
      exact Option.some_ne_none rejection
    rw [hnot]
    cases rejection with
    | notFinal node =>
      obtain ⟨rfl, hread, hfinal⟩ := (h.notFinal_iff node).1 hout
      exact hall hread ▸ .notFinal hfinal
    | noTransition node c position =>
      obtain ⟨rfl, rfl, hc, hblocks⟩ := (h.noTransition_iff node c position).1 hout
      rw [← hrest, List.getElem?_append_right (by simp), List.length_map, Nat.sub_self] at hc
      cases rest with
      | nil => cases hc
      | cons c' rest =>
        cases hc
        exact .noTransition hblocks

/-- A walk on from a node of the graph goes astray or is a run that is recorded. -/
theorem InPlace.walkFrom_eq_iff (h : g.InPlace) (hn : g.nodes[start]? = some n)
    (options : WalkOptions) (input : List Char) :
    (∀ fault, g.walkFrom options n 0 input = .error fault ↔ g.Strays options start input fault) ∧
      ∀ run, g.walkFrom options n 0 input = .ok run ↔ g.Records options start input run := by
  have hlt : start < g.size := (List.getElem?_eq_some_iff.1 hn).1
  obtain ⟨steps, k, rest, outcome, rfl, ht, hends⟩ := exists_trace g options hlt 0 input
  have hwalk := ht.walkFrom_eq h hn hends
  rw [Nat.zero_add] at hends
  refine ⟨fun fault => ⟨fun hfault => ?_, ?_⟩, fun run => ⟨fun hrun => ?_, fun hrun => ?_⟩⟩
  · rw [hwalk, map_eq_error_iff] at hfault
    subst hfault
    cases hends with
    | astray hpicks htarget => exact ⟨steps, k, _, _, _, rfl, ht, hpicks, htarget, rfl⟩
  · rintro ⟨steps', k', c, rest', e, hinput, ht', hpicks, htarget, rfl⟩
    rw [hinput]
    exact ht'.walkFrom_eq h hn (.astray hpicks htarget)
  · rw [hwalk, map_eq_ok_iff] at hrun
    obtain ⟨⟨accepted, rejection⟩, rfl, rfl⟩ := hrun
    exact ht.records hends
  · obtain ⟨rest', hinput, hends'⟩ := hrun.exists_ends
    rw [hinput]
    exact hrun.trace.walkFrom_eq h hn (by rwa [Nat.zero_add])

/-! ## Walks -/

/-- A start node before which there is none. -/
def FirstStart (g : Graph) (i : Nat) : Prop :=
  ∃ n, g.nodes[i]? = some n ∧ n.isStart = true ∧ ∀ j < i, ∀ m, g.nodes[j]? = some m →
    m.isStart = false

theorem firstStart_of_startNodes {others : List Node} (h : g.startNodes = n :: others) :
    ∃ i, g.nodes[i]? = some n ∧ g.FirstStart i := by
  obtain ⟨before, after, hnodes, hbefore, hn, -⟩ := List.filter_eq_cons_iff.1 h
  have hi : g.nodes[before.length]? = some n := by simp [hnodes]
  refine ⟨before.length, hi, n, hi, hn, fun j hj m hm => ?_⟩
  rw [hnodes, List.getElem?_append_left hj] at hm
  simpa using hbefore m (List.mem_of_getElem? hm)

/-- A walk needs a start node and a final node, and starts from the first start node. -/
theorem walk_cases (g : Graph) (options : WalkOptions) (input : String) :
    ((∀ n ∈ g.nodes, n.isStart = false) ∧ g.walk input options = .error .missingStart) ∨
    ∃ start n, g.nodes[start]? = some n ∧ g.FirstStart start ∧
      (((∀ n ∈ g.nodes, n.isFinal = false) ∧ g.walk input options = .error .missingFinal) ∨
        (∃ k, g.EndsAt k) ∧ g.walk input options = g.walkFrom options n 0 input.toList) := by
  unfold walk
  cases hstart : g.startNodes with
  | nil => exact .inl ⟨by simpa [startNodes] using hstart, rfl⟩
  | cons n others =>
    obtain ⟨start, hn, hfirst⟩ := firstStart_of_startNodes hstart
    refine .inr ⟨start, n, hn, hfirst, ?_⟩
    cases hfinal : g.finalNodes with
    | nil => exact .inl ⟨by simpa [finalNodes] using hfinal, rfl⟩
    | cons m others =>
      obtain ⟨hm, hmark⟩ := List.mem_filter.1 (hfinal ▸ List.mem_cons_self : m ∈ g.finalNodes)
      obtain ⟨k, hk⟩ := List.mem_iff_getElem?.1 hm
      exact .inr ⟨⟨k, m, hk, hmark⟩, rfl⟩

/-- A run records a walk from the first start node. -/
theorem InPlace.exists_records {input : String} (h : g.InPlace)
    (hrun : g.walk input options = .ok run) :
    ∃ start, g.FirstStart start ∧ g.Records options start input.toList run := by
  rcases g.walk_cases options input with
    ⟨-, hwalk⟩ | ⟨start, n, hn, hfirst, ⟨-, hwalk⟩ | ⟨-, hwalk⟩⟩
  · cases hrun.symm.trans hwalk
  · cases hrun.symm.trans hwalk
  · exact ⟨start, hfirst, ((h.walkFrom_eq_iff hn _ _).2 run).1 (hwalk.symm.trans hrun)⟩

/-- A walk lacks a start node, or else a final node, or starts from the first start node: then it
fails exactly where it follows an edge to no node, which the fault names, and is a run exactly where
the run records it. -/
theorem walk_records {g : Graph} (h : g.InPlace) (options : WalkOptions) (input : String) :
    ((∀ n ∈ g.nodes, n.isStart = false) ∧ g.walk input options = .error .missingStart) ∨
    ∃ start, g.FirstStart start ∧
      (((∀ n ∈ g.nodes, n.isFinal = false) ∧ g.walk input options = .error .missingFinal) ∨
        (∃ k, g.EndsAt k) ∧
          (∀ fault, g.walk input options = .error fault ↔
            g.Strays options start input.toList fault) ∧
          ∀ run, g.walk input options = .ok run ↔
            g.Records options start input.toList run) := by
  rcases g.walk_cases options input with hmissing | ⟨start, n, hn, hfirst, hmissing | ⟨hend, hwalk⟩⟩
  · exact .inl hmissing
  · exact .inr ⟨start, hfirst, .inl hmissing⟩
  · obtain ⟨herror, hok⟩ := h.walkFrom_eq_iff hn options input.toList
    rw [← hwalk] at herror hok
    exact .inr ⟨start, hfirst, .inr ⟨hend, herror, hok⟩⟩

/-- A graph with two start nodes, edges that still carry expressions, an edge that reads nothing and
edges that lead to no node. -/
def tangled : Graph where
  nodes := [
    ⟨0, "p", false, true, [⟨1, .label .any⟩]⟩,
    ⟨1, "q", true, false, [⟨2, .pattern [.atom (.literal 'a')]⟩,
      ⟨2, .pattern [.groupOpen, .atom (.literal 'b'), .groupClose]⟩, ⟨0, .label .epsilon⟩]⟩,
    ⟨2, "q", true, false, [⟨7, .label (.range 'c' 'e')⟩, ⟨1, .label .any⟩, ⟨2, .label .any⟩]⟩]
  history := []

theorem walk_records_tangled : tangled.InPlace ∧
    (((∀ n ∈ tangled.nodes, n.isStart = false) ∧
      tangled.walk "aba" ⟨true⟩ = .error .missingStart) ∨
    ∃ start, tangled.FirstStart start ∧
      (((∀ n ∈ tangled.nodes, n.isFinal = false) ∧
        tangled.walk "aba" ⟨true⟩ = .error .missingFinal) ∨
        (∃ k, tangled.EndsAt k) ∧
          (∀ fault, tangled.walk "aba" ⟨true⟩ = .error fault ↔
            tangled.Strays ⟨true⟩ start "aba".toList fault) ∧
          ∀ run, tangled.walk "aba" ⟨true⟩ = .ok run ↔
            tangled.Records ⟨true⟩ start "aba".toList run)) :=
  ⟨rfl, walk_records (rfl : tangled.InPlace) ⟨true⟩ "aba"⟩

/-! ## Where a run says that it stopped -/

theorem Records.eq_standing (h : g.Records options start input run)
    (hk : run.lastNode? = some k) : k = run.standing start := by
  unfold Run.lastNode? at hk
  cases hout : run.rejection with
  | none =>
    rw [hout] at hk
    have hlast : run.steps.getLast?.map (·.target) = some k := hk
    rw [Run.standing, hlast]
    rfl
  | some rejection =>
    rw [hout] at hk
    cases hk
    cases rejection with
    | noTransition node c position => exact ((h.noTransition_iff node c position).1 hout).1
    | notFinal node => exact ((h.notFinal_iff node).1 hout).1

/-- The run does not say where it stopped exactly where no character is to be read and the walk
accepts this. -/
theorem Records.lastNode?_eq_none_iff (h : g.Records options start input run) :
    run.lastNode? = none ↔ input = [] ∧ g.EndsAt start := by
  unfold Run.lastNode?
  constructor
  · intro hnone
    cases hout : run.rejection with
    | some rejection => simp [hout] at hnone
    | none =>
      rw [hout] at hnone
      have hnil : run.steps = [] := by simpa using hnone
      obtain ⟨hread, hend⟩ := h.rejection_eq_none_iff.1 hout
      rw [hnil] at hread
      rw [Run.standing, hnil] at hend
      exact ⟨hread.symm, hend⟩
  · rintro ⟨rfl, hend⟩
    have hnil : run.steps = [] := by simpa using h.chars
    have hout : run.rejection = none :=
      h.rejection_eq_none_iff.2 ⟨by simp [hnil], by rwa [Run.standing, hnil]⟩
    rw [hout, hnil]
    rfl

/-- A run records a trace from the first start node and says that it stopped where this leads to: at
the target of its last step, or at the start node if there is none. This is a final node if the run
is accepted. It says nothing exactly where the input is empty and the start node is final. -/
theorem lastNode?_of_walk {g : Graph} {options : WalkOptions} {input : String} {run : Run}
    (h : g.InPlace) (hrun : g.walk input options = .ok run) :
    ∃ start, g.FirstStart start ∧ g.Trace options start run.steps (run.standing start) ∧
      (run.lastNode? = none ↔ input = "" ∧ g.EndsAt start) ∧
      ∀ k, run.lastNode? = some k →
        k = run.standing start ∧ (run.accepted = true → g.EndsAt k) := by
  obtain ⟨start, hfirst, hrecords⟩ := h.exists_records hrun
  refine ⟨start, hfirst, hrecords.trace, ?_, fun k hk => ?_⟩
  · rw [hrecords.lastNode?_eq_none_iff, String.toList_eq_nil_iff]
  · obtain rfl := hrecords.eq_standing hk
    refine ⟨rfl, fun haccepted => ?_⟩
    exact (hrecords.rejection_eq_none_iff.1 (hrecords.accepted_iff.1 haccepted)).2

theorem lastNode?_of_walk_tangled : ∃ run, tangled.InPlace ∧ tangled.walk "ab" {} = .ok run ∧
    ∃ start, tangled.FirstStart start ∧ tangled.Trace {} start run.steps (run.standing start) ∧
      (run.lastNode? = none ↔ "ab" = "" ∧ tangled.EndsAt start) ∧
      ∀ k, run.lastNode? = some k →
        k = run.standing start ∧ (run.accepted = true → tangled.EndsAt k) :=
  ⟨⟨false, [⟨1, 'a', 2⟩, ⟨2, 'b', 1⟩], some (.notFinal 1)⟩, rfl, rfl,
    lastNode?_of_walk (rfl : tangled.InPlace) rfl⟩

/-- A graph of one node, where every walk starts and may end. -/
def resting : Graph := ⟨[⟨0, "q0", true, true, []⟩], []⟩

/-- A run need not say where it stopped. -/
theorem lastNode?_missing_resting : ¬ ∀ (g : Graph) (options : WalkOptions) (input : String)
    (run : Run), g.Built → g.walk input options = .ok run →
      ∃ start, g.FirstStart start ∧ run.lastNode? = some (run.standing start) := by
  intro h
  have hnode : (empty.addNamed "q0").Built := .addNamed .empty
  have hstart : Built ⟨[⟨0, "q0", true, false, []⟩], []⟩ :=
    .markStart hnode (rfl : (empty.addNamed "q0").markStart 0 = _)
  have hbuilt : resting.Built := .markFinal hstart (rfl : markFinal _ 0 = _)
  obtain ⟨start, -, hlast⟩ := h resting {} "" ⟨true, [], none⟩ hbuilt rfl
  cases hlast

/-! ## Running the table instead -/

/-- A trace through edges with labels is a path that reads its characters. -/
theorem Trace.path (ht : g.Trace {} i steps k) (h : g.Labelled) :
    (arrows .words g.nodes).Path i (steps.map (·.char)) k := by
  induction ht with
  | nil => exact .nil
  | @cons i k c e steps hpicks _ _ ih =>
    obtain ⟨n, before, after, hn, hedges, hreads, -⟩ := hpicks
    have he : e ∈ n.edges := hedges ▸ List.mem_append_right _ List.mem_cons_self
    obtain ⟨l, hl, -⟩ := h.exists_label hn he
    have hc : l.reads c = true := by
      rw [← hreads, Edge.reads, hl]
      cases l <;> rfl
    have hne : l ≠ .epsilon := by
      rintro rfl
      cases hc
    have hmove : arrows .words g.nodes i [c] e.target :=
      ⟨n, hn, e, he, rfl, hl ▸ (Label.mem_language_iff hne).2 ⟨c, rfl, hc⟩⟩
    exact .cons hmove ih

/-- The table of a graph is found and accepts every word that a walk through the graph accepts. -/
theorem ofGraph_accepts_of_accepts {g : Graph} {input : String} (h : g.Labelled)
    (haccepts : g.accepts input = .ok true) :
    ∃ t, Table.ofGraph g = .ok t ∧ t.accepts input = .ok true := by
  obtain ⟨run, hrun, haccepted⟩ := map_eq_ok_iff.1 haccepts
  obtain ⟨start, ⟨n, hn, hstart, -⟩, hrecords⟩ := h.inPlace.exists_records hrun
  obtain ⟨hread, hend⟩ := hrecords.rejection_eq_none_iff.1 (hrecords.accepted_iff.1 haccepted)
  have hpath := hrecords.trace.path h
  rw [hread] at hpath
  have hne : g.nodes ≠ [] := List.ne_nil_of_mem (List.mem_of_getElem? hn)
  obtain ⟨columns, hok, hc⟩ := h.exists_tableOf
  obtain ⟨answer, hanswer, hiff⟩ := (h.runnable_tableOf hne hc).decides_accepts input
  have hword := (h.mem_language_iff hc).2 ⟨start, _, .inl ⟨n, hn, hstart⟩, hend, hpath⟩
  exact ⟨_, hok, hanswer.trans (congrArg Except.ok (hiff.2 hword))⟩

/-- A graph with two start nodes that reach each other without reading, and with edges of one node
that read the same characters. -/
def branching : Graph where
  nodes := [
    ⟨0, "p", true, false, [⟨1, .label .epsilon⟩, ⟨1, .label (.range 'a' 'c')⟩, ⟨0, .label .any⟩]⟩,
    ⟨1, "q", true, false, [⟨0, .label .epsilon⟩, ⟨2, .label (.noneOf [⟨'a', 'b'⟩])⟩]⟩,
    ⟨2, "", false, true, [⟨2, .label (.literal 'c')⟩]⟩]
  history := []

theorem ofGraph_accepts_of_accepts_branching : branching.Labelled ∧
    branching.accepts "zac" = .ok true ∧
    ∃ t, Table.ofGraph branching = .ok t ∧ t.accepts "zac" = .ok true := by
  have hlabels : ∀ n ∈ branching.nodes, ∀ e ∈ n.edges, ∃ l : Label, e.inscription = .label l ∧
      Label.ofText l.text = .ok l := by
    simp only [branching, List.mem_cons, List.not_mem_nil, or_false, forall_eq_or_imp, forall_eq,
      Inscription.label.injEq, exists_eq_left', Label.ofText_eq_ok_iff]
    decide +kernel
  have hlabelled : branching.Labelled := ⟨rfl, by decide, by decide, hlabels⟩
  exact ⟨hlabelled, rfl, ofGraph_accepts_of_accepts hlabelled rfl⟩

end Graph

end Acceptor
