/-
Tables as JSON documents. Main statement: a table reads back from its document if it makes sense,
and otherwise the document is refused with the fault of the table (`ofDocument_document`).
-/
import Acceptor.Proofs.Dict
import Acceptor.Proofs.Json.Reading
import Acceptor.Table.Document

namespace Acceptor

namespace Json

variable {α : Type} {n : Nat}

/-! ## Parts that are written -/

theorem written_ofText (s : String) : Written (ofText s) :=
  .string s.toList

theorem written_ofTexts (ss : List String) : Written (ofTexts ss) := by
  refine .array fun item hitem => ?_
  obtain ⟨s, -, rfl⟩ := List.mem_map.1 hitem
  exact written_ofText s

theorem written_ofIndices (s : IndexSet) : Written (ofIndices s) := by
  refine .array fun item hitem => ?_
  obtain ⟨i, -, rfl⟩ := List.mem_map.1 hitem
  exact .number i

theorem written_ofDict {ofValue : α → Json} (h : ∀ a, Written (ofValue a)) (d : Dict α) :
    Written (ofDict ofValue d) := by
  refine .object (fun m hm => ?_) fun m hm => ?_
  · obtain ⟨e, -, rfl⟩ := List.mem_map.1 hm
    exact ⟨_, rfl⟩
  · obtain ⟨e, -, rfl⟩ := List.mem_map.1 hm
    exact h e.2

/-! ## Parts that are read -/

theorem mapM_map_eq_some {β : Type} {f : α → β} {g : β → Option α} {as : List α}
    (h : ∀ a ∈ as, g (f a) = some a) : (as.map f).mapM g = some as := by
  induction as with
  | nil => rfl
  | cons a as ih =>
    obtain ⟨ha, has⟩ := List.forall_mem_cons.1 h
    rw [List.map_cons, List.mapM_cons, ha, ih has]
    rfl

theorem text?_ofText (s : String) : text? (ofText s) = some s := by
  rw [ofText, text?, decode?_encode, Option.map_some, String.ofList_toList]

theorem list?_ofTexts (ss : List String) : list? text? (ofTexts ss) = some ss :=
  mapM_map_eq_some fun s _ => text?_ofText s

/-- A natural number below `2 ^ 64` is read from its digits. -/
theorem natural?_digits (h : n < UInt64.size) : natural? (digits n) = some n := by
  have hall : (digits n).all Char.isDigit = true :=
    List.all_eq_true.2 fun c hc => isDigit_of_mem_digits hc
  have hvalue : (digits n).foldl (fun n c => 10 * n + (c.toNat - '0'.toNat)) 0 = n :=
    Nat.ofDigitChars_ten_toDigits
  rw [natural?, if_pos hall, hvalue]
  exact if_pos h

theorem list?_ofIndices {s : IndexSet} (h : ∀ i ∈ s, i < UInt64.size) :
    list? nat? (ofIndices s) = some s.toList :=
  mapM_map_eq_some fun i hi => natural?_digits (h i hi)

theorem named?_encode (ms : List (String × Json)) :
    named? (ms.map fun m => (encode m.1.toList, m.2)) = some ms := by
  refine mapM_map_eq_some fun m _ => ?_
  rw [decode?_encode, Option.map_some, String.ofList_toList]

theorem dict?_ofDict {ofValue : α → Json} {value? : Json → Option α}
    (h : ∀ a, value? (ofValue a) = some a) (d : Dict α) :
    dict? value? (ofDict ofValue d) = some d := by
  have hnamed : named? (d.entries.map fun e => (encode e.1.toList, ofValue e.2)) =
      some (d.entries.map fun e => (e.1, ofValue e.2)) := by
    rw [← named?_encode, List.map_map]
    rfl
  have hentries : (d.entries.map fun e => (e.1, ofValue e.2)).mapM
      (fun m => (value? m.2).map (m.1, ·)) = some d.entries := by
    refine mapM_map_eq_some fun e _ => ?_
    rw [h, Option.map_some]
  rw [ofDict, dict?, hnamed, Option.bind_eq_bind, Option.bind_some, hentries]
  exact congrArg some d.ofList_entries

end Json

namespace Table

open Json

/-! ## Whole tables -/

/-- The document as a value. -/
def toJson (t : Table) : Json :=
  .object ((partNames.map String.toList).zip t.parts)

variable {t : Table}

/-- The names of the parts need no escapes. -/
theorem encode_partName : ∀ name ∈ partNames, encode name.toList = name.toList := by
  decide +kernel

theorem toJson_eq (t : Table) :
    t.toJson = .object ((partNames.zip t.parts).map fun m => (encode m.1.toList, m.2)) := by
  rw [toJson, List.zip_map_left]
  refine congrArg Json.object (List.map_congr_left fun m hm => ?_)
  rw [encode_partName m.1 (List.of_mem_zip hm).1]
  rfl

theorem written_parts : ∀ v ∈ t.parts, Written v := by
  simp only [parts, List.forall_mem_cons]
  exact ⟨written_ofTexts _, written_ofTexts _, written_ofText _,
    written_ofDict (written_ofDict written_ofTexts) _, written_ofIndices _, written_ofIndices _,
    List.forall_mem_nil _⟩

theorem written_toJson (t : Table) : Written t.toJson := by
  rw [toJson_eq]
  refine .object (fun m hm => ?_) fun m hm => ?_
  · obtain ⟨e, -, rfl⟩ := List.mem_map.1 hm
    exact ⟨_, rfl⟩
  · obtain ⟨e, he, rfl⟩ := List.mem_map.1 hm
    exact written_parts e.2 (List.of_mem_zip he).2

theorem parts?_toJson (t : Table) : parts? t.toJson = some (t.parts.map some) := by
  rw [toJson_eq, parts?, named?_encode]
  rfl

theorem ofJson?_toJson (hs : ∀ i ∈ t.starts, i < UInt64.size)
    (hf : ∀ i ∈ t.finals, i < UInt64.size) : ofJson? t.toJson = some t := by
  rw [ofJson?, parts?_toJson]
  simp only [parts, List.map_cons, List.map_nil, Option.bind_eq_bind, Option.bind_some,
    list?_ofTexts, orElse?, text?_ofText, dict?_ofDict (dict?_ofDict list?_ofTexts),
    list?_ofIndices hs, list?_ofIndices hf, OrderedSet.ofList_toList]
  rfl

/-- A table whose positions fit into a machine word reads back from its document if it makes
sense; otherwise the document is refused with the fault of the table. -/
theorem ofDocument_document {t : Table} (hs : ∀ i ∈ t.starts, i < UInt64.size)
    (hf : ∀ i ∈ t.finals, i < UInt64.size) :
    ofDocument t.document = t.validate.map fun _ => t := by
  have hread : read? t.document = some t.toJson := read?_text (written_toJson t)
  rw [ofDocument, hread, Option.bind_some, ofJson?_toJson hs hf]

/-- A table that makes no sense, with texts that need escapes of every kind, an empty row, an empty
list of targets and the largest position. -/
def awkward : Table :=
  { (ofStates ["", "\"", "\\\x00", "\n\t\x08\x0c\r", "a/é😀\u2028", ""] ["\x1f", "null", "]", ""]
      "\\u0000") with
    moves := .ofList [("", .empty), ("\"", .ofList [("\x1f", []), ("", ["\"", "", "\""])]),
      ("\\\x00", .ofList [("]", ["\n\t\x08\x0c\r"])])]
    starts := .ofList [18446744073709551615, 0, 10]
    finals := .empty }

theorem ofDocument_document_awkward : (∀ i ∈ awkward.starts, i < UInt64.size) ∧
    (∀ i ∈ awkward.finals, i < UInt64.size) ∧
    ofDocument awkward.document = awkward.validate.map fun _ => awkward := by
  have hs : ∀ i ∈ awkward.starts, i < UInt64.size := by decide +kernel
  have hf : ∀ i ∈ awkward.finals, i < UInt64.size := by decide +kernel
  exact ⟨hs, hf, ofDocument_document hs hf⟩

end Table

end Acceptor
