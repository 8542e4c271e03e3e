/-
Reading a drawing back. A document is read from left to right as characters and quoted texts
(`pieces`); no text in quotes ends early, whatever it holds (`pieces_quote`), so the document is its
lines one after the other (`pieces_render`), and these are told apart (`entries_inj`). Main
statement: graphs with the same document show the same title and the same nodes with the same edges,
and the quoted texts of a document are its title, the names of its nodes and the texts of its edges
(`toDot_inj_quotedTexts`).
-/
import Acceptor.Graph.Dot
import Acceptor.Proofs.Graph.Labelled
import Acceptor.Proofs.Names

namespace Acceptor.Dot

variable {α : Type} {c : Char} {s rest : List Char}

/-! ## Quotes -/

/-- A piece of a document: a character outside quotes, or what stands between two quotes. -/
inductive Piece
  | plain (c : Char)
  | quoted (inner : List Char)
deriving DecidableEq

mutual

/-- The pieces of a text. -/
def pieces : List Char → List Piece
  | [] => []
  | c :: rest => if c = '"' then quotedPieces [] rest else .plain c :: pieces rest

/-- The pieces of a text that starts inside quotes, after what was read of the quoted text. A
backslash keeps the character after it from closing the quotes. -/
def quotedPieces (inner : List Char) : List Char → List Piece
  | [] => []
  | '\\' :: c :: rest => quotedPieces (inner ++ ['\\', c]) rest
  | c :: rest =>
    if c = '"' then .quoted inner :: pieces rest else quotedPieces (inner ++ [c]) rest

end

/-- What a piece quotes, without the backslashes before other characters. -/
def Piece.text? : Piece → Option String
  | plain _ => none
  | quoted inner => some (String.ofList (unescape inner))

/-- The quoted texts of a document. -/
def quotedTexts (document : String) : List String :=
  (pieces document.toList).filterMap Piece.text?

theorem pieces_plain (h : '"' ∉ s) : pieces (s ++ rest) = s.map .plain ++ pieces rest := by
  induction s with
  | nil => rfl
  | cons c s ih =>
    rw [List.cons_append, pieces, if_neg (Ne.symm (List.ne_of_not_mem_cons h)),
      ih (List.not_mem_of_not_mem_cons h)]
    rfl

theorem quotedPieces_escape (inner s rest : List Char) :
    quotedPieces inner (escape s ++ '"' :: rest) =
      .quoted (inner ++ escape s) :: pieces rest := by
  induction s generalizing inner with
  | nil => simp [escape, quotedPieces]
  | cons c s ih =>
    by_cases hslash : c = '\\'
    · simp [escape, quotedPieces, hslash, ih]
    · by_cases hquote : c = '"'
      · simp [escape, quotedPieces, hquote, ih]
      · simp [escape, quotedPieces, hslash, hquote, ih]

/-- A quoted text is one piece. -/
theorem pieces_quote (text : String) (rest : List Char) :
    pieces ((quote text).toList ++ rest) = .quoted (escape text.toList) :: pieces rest := by
  have hquote : (quote text).toList ++ rest = '"' :: (escape text.toList ++ '"' :: rest) := by
    simp [quote]
  rw [hquote, pieces, if_pos rfl, quotedPieces_escape, List.nil_append]

/-! ## Lines -/

/-- What a line of a document is about. -/
inductive Entry
  | title (text : String)
  | node (id : Nat) (name : String) (isStart isFinal : Bool)
  | edge (source target : Nat) (text : String)

namespace Entry

/-- What stands before the quoted text. -/
def lead : Entry → String
  | title _ => "    label="
  | node id _ _ _ => "    n" ++ id.repr ++ " [label="
  | edge source target _ => "    n" ++ source.repr ++ " -> n" ++ target.repr ++ " [label="

/-- The quoted text. -/
def text : Entry → String
  | title text => text
  | node _ name _ _ => name
  | edge _ _ text => text

/-- What shows the marks of a node. -/
def marks (isStart isFinal : Bool) : String :=
  ", shape=" ++ (if isFinal then "doublecircle" else "circle") ++
    ", color=" ++ (if isStart then "blue" else if isFinal then "red" else "black") ++ "];\n"

/-- What stands after the quoted text. -/
def trail : Entry → String
  | title _ => ";\n    labelloc=t;\n"
  | node _ _ isStart isFinal => marks isStart isFinal
  | edge .. => "];\n"

/-- The line of an entry. -/
def line (e : Entry) : String :=
  e.lead ++ quote e.text ++ e.trail

/-- The pieces of a line. -/
def pieces (e : Entry) : List Piece :=
  e.lead.toList.map .plain ++ .quoted (escape e.text.toList) :: e.trail.toList.map .plain

end Entry

/-- The entries of a document. -/
def entries (nodes : List Node) (title : String) : List Entry :=
  (if title = "" then [] else [.title title]) ++
    nodes.map (fun n => .node n.id n.name n.isStart n.isFinal) ++
    nodes.flatMap fun n => n.edges.map fun e => .edge n.id e.target e.inscription.text

theorem not_mem_digits (n : Nat) (hc : ¬ c.isDigit = true) : c ∉ Nat.toDigits 10 n :=
  fun h => hc (Nat.isDigit_of_mem_toDigits (by decide) (by decide) h)

namespace Entry

variable {e e' : Entry}

theorem quote_not_mem_lead (e : Entry) : '"' ∉ e.lead.toList := by
  have hdigits : ∀ n : Nat, '"' ∉ Nat.toDigits 10 n := fun n => not_mem_digits n (by decide)
  cases e with
  | title => simp [lead]
  | node => simp [lead, hdigits]
  | edge => simp [lead, hdigits]

theorem quote_not_mem_trail (e : Entry) : '"' ∉ e.trail.toList := by
  cases e with
  | title => simp [trail]
  | node _ _ isStart isFinal =>
    have hmarks : ∀ isStart isFinal, '"' ∉ (marks isStart isFinal).toList := by decide +kernel
    exact hmarks isStart isFinal
  | edge => simp [trail]

theorem pieces_line (e : Entry) (rest : List Char) :
    Dot.pieces (e.line.toList ++ rest) = e.pieces ++ Dot.pieces rest := by
  simp only [line, String.toList_append, List.append_assoc]
  rw [pieces_plain e.quote_not_mem_lead, pieces_quote, pieces_plain e.quote_not_mem_trail, pieces,
    List.append_assoc, List.cons_append]

end Entry

theorem pieces_lines (es : List Entry) (rest : List Char) :
    pieces ((String.join (es.map Entry.line)).toList ++ rest) =
      es.flatMap Entry.pieces ++ pieces rest := by
  rw [String.toList_join, List.flatMap_map]
  induction es with
  | nil => rfl
  | cons e es ih =>
    rw [List.flatMap_cons, List.flatMap_cons, List.append_assoc, e.pieces_line, ih,
      List.append_assoc]

/-! ## Documents -/

theorem nodeLine_eq (n : Node) :
    nodeLine n = (Entry.node n.id n.name n.isStart n.isFinal).line := by
  simp only [nodeLine, Entry.line, Entry.lead, Entry.text, Entry.trail, Entry.marks,
    String.append_assoc]
  rfl

theorem edgeLine_eq (source : Nat) (e : Edge) :
    edgeLine source e = (Entry.edge source e.target e.inscription.text).line := by
  simp only [edgeLine, Entry.line, Entry.lead, Entry.text, Entry.trail, String.append_assoc]
  rfl

theorem titleLines_eq (title : String) : titleLines title =
    String.join ((if title = "" then [] else [Entry.title title]).map Entry.line) := by
  unfold titleLines
  simp only [String.isEmpty_iff]
  split
  · rfl
  · simp only [List.map_singleton, String.join_cons, String.join_nil, String.append_empty]
    rfl

/-- A document is its first lines, a line for each entry and a last line. -/
theorem render_eq (nodes : List Node) (title : String) : render nodes title =
    "digraph automaton \x7b\n    rankdir=LR;\n" ++
      String.join ((entries nodes title).map Entry.line) ++ "\x7d\n" := by
  have hnodes : nodes.map nodeLine =
      (nodes.map fun n => Entry.node n.id n.name n.isStart n.isFinal).map Entry.line := by
    rw [List.map_map]
    exact List.map_congr_left fun n _ => nodeLine_eq n
  have hedges : (nodes.flatMap fun n => n.edges.map (edgeLine n.id)) =
      (nodes.flatMap fun n => n.edges.map fun e =>
        Entry.edge n.id e.target e.inscription.text).map Entry.line := by
    simp only [List.map_flatMap, List.map_map]
    exact List.flatMap_congr fun n _ => List.map_congr_left fun e _ => edgeLine_eq n.id e
  unfold render entries
  simp only [hnodes, hedges, titleLines_eq, List.map_append, String.join_append,
    String.append_assoc]

/-- The pieces of a document are those of its lines. -/
theorem pieces_render (nodes : List Node) (title : String) :
    pieces (render nodes title).toList =
      "digraph automaton \x7b\n    rankdir=LR;\n".toList.map .plain ++
        ((entries nodes title).flatMap Entry.pieces ++ [.plain '\x7d', .plain '\n']) := by
  rw [render_eq, String.toList_append, String.toList_append, List.append_assoc,
    pieces_plain (by decide), pieces_lines]
  rfl

/-! ## Lines are told apart -/

/-- Lists are told apart up to their first entry with a property. -/
theorem append_cons_inj (p : α → Bool) {a b x y : List α} {u v : α} (ha : ∀ z ∈ a, p z = false)
    (hb : ∀ z ∈ b, p z = false) (hu : p u = true) (hv : p v = true)
    (h : a ++ u :: x = b ++ v :: y) : a = b ∧ u = v ∧ x = y := by
  induction a generalizing b with
  | nil =>
    cases b with
    | nil => exact ⟨rfl, List.cons.inj h⟩
    | cons z b =>
      obtain ⟨rfl, -⟩ := List.cons.inj h
      simp [hu] at hb
  | cons z a ih =>
    cases b with
    | nil =>
      obtain ⟨rfl, -⟩ := List.cons.inj h
      simp [hv] at ha
    | cons z' b =>
      obtain ⟨rfl, htail⟩ := List.cons.inj h
      obtain ⟨rfl, huv, hxy⟩ := ih (fun w hw => ha w (List.mem_cons_of_mem _ hw))
        (fun w hw => hb w (List.mem_cons_of_mem _ hw)) htail
      exact ⟨rfl, huv, hxy⟩

/-- The digits of numbers before a space tell the numbers and what follows apart. -/
theorem digits_append_inj {m n : Nat} {x y : List Char}
    (h : Nat.toDigits 10 m ++ ' ' :: x = Nat.toDigits 10 n ++ ' ' :: y) : m = n ∧ x = y := by
  have hdigits : ∀ k : Nat, ∀ z ∈ Nat.toDigits 10 k, (z == ' ') = false := fun k z hz => by
    rw [beq_eq_false_iff_ne]
    rintro rfl
    exact not_mem_digits k (by decide) hz
  obtain ⟨hmn, -, hxy⟩ := append_cons_inj (· == ' ') (hdigits m) (hdigits n) rfl rfl h
  refine ⟨repr_inj ?_, hxy⟩
  rw [← String.toList_inj, Nat.toList_repr, Nat.toList_repr, hmn]

namespace Entry

variable {e e' : Entry} {x y : List Piece}

/-- The quoted text tells what stands before it and what stands after it apart. -/
theorem of_pieces_eq (h : e.pieces ++ x = e'.pieces ++ y) :
    e.lead.toList = e'.lead.toList ∧ e.text = e'.text ∧
      e.trail.toList.map .plain ++ x = e'.trail.toList.map .plain ++ y := by
  have hplain : ∀ s : List Char, ∀ z ∈ s.map Piece.plain, z.text?.isSome = false := fun s z hz => by
    obtain ⟨c, -, rfl⟩ := List.mem_map.1 hz
    rfl
  simp only [Entry.pieces, List.append_assoc, List.cons_append] at h
  obtain ⟨hlead, htext, htrail⟩ := append_cons_inj (·.text?.isSome) (hplain _) (hplain _) rfl rfl h
  refine ⟨(List.map_inj_right fun _ _ => Piece.plain.inj).1 hlead, ?_, htrail⟩
  rw [← String.toList_inj, ← unescape_escape e.text.toList, Piece.quoted.inj htext, unescape_escape]

/-- The text of no marks is the start of that of others. -/
theorem eq_of_marks_isPrefix : ∀ isStart isFinal isStart' isFinal' : Bool,
    (marks isStart isFinal).toList.map Piece.plain <+:
        (marks isStart' isFinal').toList.map Piece.plain →
      isStart = isStart' ∧ isFinal = isFinal' := by
  decide +kernel

/-- The marks of a node are told apart, whatever follows. -/
theorem of_marks_append_eq {isStart isFinal isStart' isFinal' : Bool}
    (h : (marks isStart isFinal).toList.map .plain ++ x =
      (marks isStart' isFinal').toList.map .plain ++ y) :
    isStart = isStart' ∧ isFinal = isFinal' ∧ x = y := by
  have hmarks : isStart = isStart' ∧ isFinal = isFinal' := by
    rcases List.append_eq_append_iff.1 h with ⟨z, hz, -⟩ | ⟨z, hz, -⟩
    · exact eq_of_marks_isPrefix _ _ _ _ ⟨z, hz.symm⟩
    · obtain ⟨hs, hf⟩ := eq_of_marks_isPrefix _ _ _ _ ⟨z, hz.symm⟩
      exact ⟨hs.symm, hf.symm⟩
  obtain ⟨rfl, rfl⟩ := hmarks
  exact ⟨rfl, rfl, List.append_cancel_left h⟩

section Leads

variable {id id' source source' target target' : Nat} {name name' text text' : String}
  {isStart isStart' isFinal isFinal' : Bool}

theorem lead_node_inj (h : (node id name isStart isFinal).lead.toList =
    (node id' name' isStart' isFinal').lead.toList) : id = id' := by
  have hdigits : Nat.toDigits 10 id ++ ' ' :: "[label=".toList =
      Nat.toDigits 10 id' ++ ' ' :: "[label=".toList := by
    simpa [lead] using h
  exact (digits_append_inj hdigits).1

theorem lead_edge_inj (h : (edge source target text).lead.toList =
    (edge source' target' text').lead.toList) : source = source' ∧ target = target' := by
  have hdigits : Nat.toDigits 10 source ++ ' ' :: ("-> n".toList ++ (Nat.toDigits 10 target ++
      ' ' :: "[label=".toList)) = Nat.toDigits 10 source' ++ ' ' :: ("-> n".toList ++
      (Nat.toDigits 10 target' ++ ' ' :: "[label=".toList)) := by
    simpa [lead] using h
  obtain ⟨hsource, htargets⟩ := digits_append_inj hdigits
  exact ⟨hsource, (digits_append_inj (List.append_cancel_left htargets)).1⟩

theorem lead_node_ne_lead_edge :
    (node id name isStart isFinal).lead.toList ≠ (edge source target text).lead.toList := by
  intro h
  have hdigits : Nat.toDigits 10 id ++ ' ' :: "[label=".toList = Nat.toDigits 10 source ++
      ' ' :: '-' :: ("> n".toList ++ Nat.toDigits 10 target ++ " [label=".toList) := by
    simpa [lead] using h
  simpa using (digits_append_inj hdigits).2

end Leads

/-- Lines are told apart, whatever follows. -/
theorem eq_of_pieces_eq (h : e.pieces ++ x = e'.pieces ++ y) : e = e' ∧ x = y := by
  obtain ⟨hlead, htext, htrail⟩ := of_pieces_eq h
  cases e with
  | title text =>
    cases e' with
    | title text' =>
      obtain rfl : text = text' := htext
      exact ⟨rfl, List.append_cancel_left htrail⟩
    | node => simp [lead] at hlead
    | edge => simp [lead] at hlead
  | node id name isStart isFinal =>
    cases e' with
    | title => simp [lead] at hlead
    | node id' name' isStart' isFinal' =>
      obtain rfl : name = name' := htext
      obtain ⟨rfl, rfl, hxy⟩ := of_marks_append_eq htrail
      obtain rfl := lead_node_inj hlead
      exact ⟨rfl, hxy⟩
    | edge => exact absurd hlead lead_node_ne_lead_edge
  | edge source target text =>
    cases e' with
    | title => simp [lead] at hlead
    | node => exact absurd hlead.symm lead_node_ne_lead_edge
    | edge source' target' text' =>
      obtain rfl : text = text' := htext
      obtain ⟨rfl, rfl⟩ := lead_edge_inj hlead
      exact ⟨rfl, List.append_cancel_left htrail⟩

/-- No line starts like the last one. -/
theorem pieces_append_ne (e : Entry) (x rest : List Piece) :
    e.pieces ++ x ≠ .plain '\x7d' :: rest := by
  cases e <;> simp [pieces, lead]

end Entry

/-- The lines of a document are told apart. -/
theorem entries_inj {es es' : List Entry} {rest : List Piece}
    (h : es.flatMap Entry.pieces ++ .plain '\x7d' :: rest =
      es'.flatMap Entry.pieces ++ .plain '\x7d' :: rest) : es = es' := by
  induction es generalizing es' with
  | nil =>
    cases es' with
    | nil => rfl
    | cons e' es' =>
      rw [List.flatMap_cons, List.append_assoc] at h
      exact absurd h.symm (e'.pieces_append_ne _ _)
  | cons e es ih =>
    cases es' with
    | nil =>
      rw [List.flatMap_cons, List.append_assoc] at h
      exact absurd h (e.pieces_append_ne _ _)
    | cons e' es' =>
      simp only [List.flatMap_cons, List.append_assoc] at h
      obtain ⟨rfl, hes⟩ := Entry.eq_of_pieces_eq h
      rw [ih hes]

/-- Drawings with the same document have the same entries. -/
theorem entries_eq_of_render_eq {nodes nodes' : List Node} {title title' : String}
    (h : render nodes title = render nodes' title') :
    entries nodes title = entries nodes' title' := by
  have hpieces := congrArg (fun document => pieces document.toList) h
  simp only [pieces_render] at hpieces
  exact entries_inj (List.append_cancel_left hpieces)

/-! ## What a drawing shows -/

/-- What a drawing shows of a node: its name, its marks, and where its edges lead with their
texts. -/
structure Outline where
  name : String
  isStart : Bool
  isFinal : Bool
  edges : List (Nat × String)
deriving DecidableEq

def outline (n : Node) : Outline :=
  ⟨n.name, n.isStart, n.isFinal, n.edges.map fun e => (e.target, e.inscription.text)⟩

theorem filterMap_text?_plain (s : List Char) :
    (s.map Piece.plain).filterMap Piece.text? = [] := by
  rw [List.filterMap_map]
  exact List.filterMap_eq_nil_iff.2 fun _ _ => rfl

/-- A line quotes the text of its entry alone. -/
theorem Entry.filterMap_text?_pieces (e : Entry) : e.pieces.filterMap Piece.text? = [e.text] := by
  rw [Entry.pieces, List.filterMap_append, List.filterMap_cons, filterMap_text?_plain,
    filterMap_text?_plain]
  simp [Piece.text?, unescape_escape]

/-- The quoted texts of a drawing are the title, the names and the texts of the edges. -/
theorem quotedTexts_render (nodes : List Node) (title : String) :
    quotedTexts (render nodes title) = (if title = "" then [] else [title]) ++
      nodes.map (·.name) ++ nodes.flatMap fun n => n.edges.map (·.inscription.text) := by
  have hentries : ((entries nodes title).flatMap Entry.pieces).filterMap Piece.text? =
      (entries nodes title).map Entry.text := by
    rw [List.filterMap_flatMap]
    simp only [Entry.filterMap_text?_pieces]
    exact List.flatMap_pure_eq_map _ _
  have htitle : (if title = "" then [] else [Entry.title title]).map Entry.text =
      if title = "" then [] else [title] := by
    split <;> rfl
  rw [quotedTexts, pieces_render, List.filterMap_append, List.filterMap_append,
    filterMap_text?_plain, hentries, entries]
  simp only [List.map_append, List.map_map, List.map_flatMap, htitle, List.nil_append]
  exact List.append_nil _

/-- The title that an entry shows. -/
def Entry.title? : Entry → Option String
  | title text => some text
  | _ => none

/-- The name and the marks of the node that an entry shows. -/
def Entry.node? : Entry → Option (String × Bool × Bool)
  | node _ name isStart isFinal => some (name, isStart, isFinal)
  | _ => none

/-- The source, the target and the text of the edge that an entry shows. -/
def Entry.edge? : Entry → Option (Nat × Nat × String)
  | edge source target text => some (source, target, text)
  | _ => none

/-- How the edges of a node are shown: with its number, their targets and their texts. -/
def shownEdges (n : Node) : List (Nat × Nat × String) :=
  n.edges.map fun e => (n.id, e.target, e.inscription.text)

theorem title?_entries (nodes : List Node) (title : String) :
    (entries nodes title).filterMap Entry.title? = if title = "" then [] else [title] := by
  unfold entries
  split <;> simp [List.filterMap_flatMap, Entry.title?, Function.comp_def]

theorem node?_entries (nodes : List Node) (title : String) :
    (entries nodes title).filterMap Entry.node? =
      nodes.map fun n => (n.name, n.isStart, n.isFinal) := by
  unfold entries
  split <;>
    simp [List.filterMap_cons, List.filterMap_flatMap, Entry.node?, Function.comp_def]

theorem edge?_entries (nodes : List Node) (title : String) :
    (entries nodes title).filterMap Entry.edge? = nodes.flatMap shownEdges := by
  change _ = nodes.flatMap fun n => n.edges.map fun e => (n.id, e.target, e.inscription.text)
  unfold entries
  split <;>
    simp [List.filterMap_cons, List.filterMap_flatMap, Entry.edge?, Function.comp_def]

theorem filter_shownEdges (i : Nat) (n : Node) :
    (shownEdges n).filter (·.1 = i) = if n.id = i then shownEdges n else [] := by
  unfold shownEdges
  split <;> simp_all

/-- The edges that are shown with the number of a node are its own. -/
theorem filter_flatMap_shownEdges {g : Graph} (h : g.InPlace) {i : Nat} {n : Node}
    (hn : g.nodes[i]? = some n) :
    (g.nodes.flatMap shownEdges).filter (·.1 = i) = shownEdges n := by
  obtain ⟨before, after, hnodes⟩ := List.append_of_mem (List.mem_of_getElem? hn)
  have hid := h.id_eq hn
  have hnodup : (g.nodes.map (·.id)).Nodup := h ▸ List.nodup_range
  rw [hnodes, List.map_append, List.map_cons, List.nodup_middle, List.nodup_cons] at hnodup
  have hother : ∀ m ∈ before ++ after, ¬ m.id = i := by
    intro m hm he
    refine hnodup.1 ?_
    rw [hid, ← he, ← List.map_append]
    exact List.mem_map.2 ⟨m, hm, rfl⟩
  have hnone : ∀ nodes, nodes ⊆ before ++ after →
      (nodes.flatMap fun m => if m.id = i then shownEdges m else []) = [] :=
    fun nodes hsub => List.flatMap_eq_nil_iff.2 fun m hm => if_neg (hother m (hsub hm))
  rw [List.filter_flatMap]
  simp only [filter_shownEdges]
  rw [hnodes, List.flatMap_append, List.flatMap_cons, hnone _ (List.subset_append_left _ _),
    hnone _ (List.subset_append_right _ _), if_pos hid, List.append_nil, List.nil_append]

/-- Graphs with the same entries have the same outlines. -/
theorem outline_eq_of_entries_eq {g g' : Graph} (h : g.InPlace) (h' : g'.InPlace)
    {title title' : String} (he : entries g.nodes title = entries g'.nodes title') :
    g.nodes.map outline = g'.nodes.map outline := by
  have hnodes := congrArg (List.filterMap Entry.node?) he
  have hedges := congrArg (List.filterMap Entry.edge?) he
  rw [node?_entries, node?_entries] at hnodes
  rw [edge?_entries, edge?_entries] at hedges
  refine List.ext_getElem? fun i => ?_
  have hi := congrArg (·[i]?) hnodes
  simp only [List.getElem?_map] at hi ⊢
  cases hn : g.nodes[i]? with
  | none =>
    cases hn' : g'.nodes[i]? with
    | none => rfl
    | some n' => simp [hn, hn'] at hi
  | some n =>
    cases hn' : g'.nodes[i]? with
    | none => simp [hn, hn'] at hi
    | some n' =>
      have hshown : shownEdges n = shownEdges n' := by
        rw [← filter_flatMap_shownEdges h hn, hedges, filter_flatMap_shownEdges h' hn']
      have htargets : n.edges.map (fun e => (e.target, e.inscription.text)) =
          n'.edges.map fun e => (e.target, e.inscription.text) := by
        simpa [shownEdges, Function.comp_def] using congrArg (List.map Prod.snd) hshown
      rw [hn, hn'] at hi
      simp only [Option.map_some, Option.some.injEq, Prod.mk.injEq] at hi ⊢
      rw [outline, outline, hi.1, hi.2.1, hi.2.2, htargets]

/-- Graphs with the same document are drawn under the same title, with as many nodes, which have the
same names and marks and whose edges lead to the same nodes with the same texts, in their order. The
quoted texts of a document are its title, if there is one, the names of the nodes and the texts of
their edges. -/
theorem toDot_inj_quotedTexts {g g' : Graph} (h : g.InPlace) (h' : g'.InPlace)
    (title title' : String) :
    (g.toDot title = g'.toDot title' →
      title = title' ∧ g.nodes.map outline = g'.nodes.map outline) ∧
    quotedTexts (g.toDot title) = (if title = "" then [] else [title]) ++
      g.nodes.map (·.name) ++ g.nodes.flatMap fun n => n.edges.map (·.inscription.text) := by
  refine ⟨fun hdot => ?_, quotedTexts_render g.nodes title⟩
  have hentries := entries_eq_of_render_eq hdot
  refine ⟨?_, outline_eq_of_entries_eq h h' hentries⟩
  have htitles := congrArg (List.filterMap Entry.title?) hentries
  rw [title?_entries, title?_entries] at htitles
  grind

/-- A graph with names and texts that look like the end of a line and the start of another. -/
def misleading (s : Inscription) : Graph where
  nodes := [
    ⟨0, "\"];\n    n1 [label=\"", true, true, [⟨7, .label (.oneOf ['"', '\\'])⟩, ⟨1, s⟩]⟩,
    ⟨1, "\\", false, false, [⟨0, .label (.range '\\' '"')⟩, ⟨1, s⟩]⟩]
  history := []

theorem toDot_inj_quotedTexts_misleading :
    (misleading (.label (.literal 'a'))).InPlace ∧
    (misleading (.pattern [.atom (.literal 'a')])).InPlace ∧
    (misleading (.label (.literal 'a'))).toDot "\\\"" =
      (misleading (.pattern [.atom (.literal 'a')])).toDot "\\\"" ∧
    (misleading (.label (.literal 'a'))).nodes.map outline =
      (misleading (.pattern [.atom (.literal 'a')])).nodes.map outline ∧
    quotedTexts ((misleading (.label (.literal 'a'))).toDot "\\\"") =
      ["\\\"", "\"];\n    n1 [label=\"", "\\", "\x7b\"\\\x7d", "a", "[\\-\"]", "a"] := by
  have hdot : (misleading (.label (.literal 'a'))).toDot "\\\"" =
      (misleading (.pattern [.atom (.literal 'a')])).toDot "\\\"" := by rfl
  obtain ⟨hshown, hquoted⟩ := toDot_inj_quotedTexts
    (rfl : (misleading (.label (.literal 'a'))).InPlace)
    (rfl : (misleading (.pattern [.atom (.literal 'a')])).InPlace) "\\\"" "\\\""
  exact ⟨rfl, rfl, hdot, (hshown hdot).2, hquoted⟩

end Acceptor.Dot
