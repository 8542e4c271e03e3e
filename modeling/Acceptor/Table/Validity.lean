/-
When a table makes sense: names of states are distinct, positions are those of states, and every
stored row, column and target is declared. Main statement: `validate` accepts exactly the tables
that are `Valid` (`validate_eq_ok_iff`), and otherwise tells the first fault.
-/
import Acceptor.Table

namespace Acceptor.Table

/-- A table that makes sense. -/
structure Valid (t : Table) : Prop where
  nodup : t.states.Nodup
  starts_lt : ∀ i ∈ t.starts, i < t.size
  finals_lt : ∀ i ∈ t.finals, i < t.size
  rows : ∀ row ∈ t.moves.entries, row.1 ∈ t.states
  columns : ∀ row ∈ t.moves.entries, ∀ column ∈ row.2.entries, column.1 ∈ t.alphabet
  targets : ∀ row ∈ t.moves.entries, ∀ column ∈ row.2.entries, ∀ target ∈ column.2,
    target ∈ t.states

/-- The first name that is among those seen before it. -/
def firstRepeat? (seen : List String) : List String → Option String
  | [] => none
  | name :: rest => if name ∈ seen then some name else firstRepeat? (name :: seen) rest

/-- The first fault of a stored column. -/
def columnFault? (t : Table) (column : String × List String) : Option Error :=
  if column.1 ∉ t.alphabet then some (.unknownSymbol column.1)
  else (column.2.find? (· ∉ t.states)).map .unknownState

/-- The first fault of a stored row. -/
def rowFault? (t : Table) (row : String × Dict (List String)) : Option Error :=
  if row.1 ∉ t.states then some (.unknownState row.1)
  else row.2.entries.findSome? t.columnFault?

/-- The first fault: of the names of the states, of the start and final positions, or of the
stored rows in the order of their keys. -/
def fault? (t : Table) : Option Error :=
  ((firstRepeat? [] t.states).map .duplicateState).or <|
    (((t.starts.toList ++ t.finals.toList).find? (t.size ≤ ·)).map
      (.indexOutOfRange · t.size)).or <|
      t.moves.entries.findSome? t.rowFault?

/-- Fails with the first fault of a table. -/
def validate (t : Table) : Except Error Unit :=
  match t.fault? with
  | some e => .error e
  | none => .ok ()

theorem firstRepeat?_eq_none_iff {seen names : List String} :
    firstRepeat? seen names = none ↔ names.Nodup ∧ ∀ name ∈ names, name ∉ seen := by
  induction names generalizing seen with
  | nil => simp [firstRepeat?]
  | cons name rest ih =>
    rw [firstRepeat?]
    split
    · rename_i h
      simp [h]
    · rename_i h
      rw [ih, List.nodup_cons]
      simp only [List.mem_cons, not_or]
      grind

theorem columnFault?_eq_none_iff {t : Table} {column : String × List String} :
    t.columnFault? column = none ↔
      column.1 ∈ t.alphabet ∧ ∀ target ∈ column.2, target ∈ t.states := by
  unfold columnFault?
  split <;> simp_all

theorem rowFault?_eq_none_iff {t : Table} {row : String × Dict (List String)} :
    t.rowFault? row = none ↔ row.1 ∈ t.states ∧ ∀ column ∈ row.2.entries,
      column.1 ∈ t.alphabet ∧ ∀ target ∈ column.2, target ∈ t.states := by
  unfold rowFault?
  split <;> simp_all [columnFault?_eq_none_iff]

theorem fault?_eq_none_iff {t : Table} : t.fault? = none ↔ t.Valid := by
  rw [fault?]
  simp only [Option.or_eq_none_iff, Option.map_eq_none_iff, List.find?_eq_none,
    List.findSome?_eq_none_iff, firstRepeat?_eq_none_iff, rowFault?_eq_none_iff, List.mem_append,
    decide_eq_true_eq, Nat.not_le]
  constructor
  · rintro ⟨⟨hnodup, -⟩, hlt, hrows⟩
    exact ⟨hnodup, fun i hi => hlt i (.inl hi), fun i hi => hlt i (.inr hi),
      fun row hr => (hrows row hr).1, fun row hr column hc => ((hrows row hr).2 column hc).1,
      fun row hr column hc => ((hrows row hr).2 column hc).2⟩
  · intro h
    exact ⟨⟨h.nodup, by simp⟩, fun i hi => hi.elim (h.starts_lt i) (h.finals_lt i),
      fun row hr => ⟨h.rows row hr, fun column hc => ⟨h.columns row hr column hc,
        h.targets row hr column hc⟩⟩⟩

/-- Exactly the tables that make sense are accepted. -/
theorem validate_eq_ok_iff {t : Table} : t.validate = .ok () ↔ t.Valid := by
  rw [← fault?_eq_none_iff]
  unfold validate
  split <;> simp_all

instance (t : Table) : Decidable t.Valid :=
  decidable_of_iff _ fault?_eq_none_iff

end Acceptor.Table
