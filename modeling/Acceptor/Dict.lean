/-
Dictionaries with text keys, kept in increasing order of their keys, by code points. Main
statements: what a key finds after an insertion (`get?_insert`), and dictionaries in which every
key finds the same are equal (`ext`).
-/
import Acceptor.OrderedSet

namespace Acceptor

/-- A dictionary: its entries in increasing order of their keys. -/
structure Dict (α : Type) where
  entries : List (String × α)
  increasing : (entries.map Prod.fst).Pairwise (· < ·)
deriving DecidableEq

namespace Dict

variable {α β : Type}

/-- Puts an entry in its place, instead of one with the same key. -/
def insertEntry (key : String) (value : α) : List (String × α) → List (String × α)
  | [] => [(key, value)]
  | e :: rest =>
    if key < e.1 then (key, value) :: e :: rest
    else if e.1 < key then e :: insertEntry key value rest
    else (key, value) :: rest

theorem mem_keys_insertEntry {key : String} {value : α} {es : List (String × α)} {k : String} :
    k ∈ (insertEntry key value es).map Prod.fst ↔ k = key ∨ k ∈ es.map Prod.fst := by
  induction es with
  | nil => simp [insertEntry]
  | cons e rest ih =>
    unfold insertEntry
    split
    · simp
    · rename_i h₁
      split
      · simp only [List.map_cons, List.mem_cons, ih]
        grind
      · rename_i h₂
        have : key = e.1 := OrderedSet.eq_of_not_lt h₁ h₂
        simp [this]

theorem pairwise_insertEntry {key : String} {value : α} {es : List (String × α)}
    (h : (es.map Prod.fst).Pairwise (· < ·)) :
    ((insertEntry key value es).map Prod.fst).Pairwise (· < ·) := by
  induction es with
  | nil => simp [insertEntry]
  | cons e rest ih =>
    rw [List.map_cons, List.pairwise_cons] at h
    unfold insertEntry
    split
    · rename_i hlt
      simp only [List.map_cons, List.pairwise_cons]
      refine ⟨fun k hk => ?_, h⟩
      rcases List.mem_cons.1 hk with rfl | hk
      · exact hlt
      · exact Std.lt_trans hlt (h.1 k hk)
    · rename_i h₁
      split
      · rename_i hlt
        simp only [List.map_cons, List.pairwise_cons]
        refine ⟨fun k hk => ?_, ih h.2⟩
        rcases mem_keys_insertEntry.1 hk with rfl | hk
        · exact hlt
        · exact h.1 k hk
      · rename_i h₂
        have : key = e.1 := OrderedSet.eq_of_not_lt h₁ h₂
        simp only [List.map_cons, List.pairwise_cons, this]
        exact h

/-! ## Operations -/

/-- The dictionary without entries. -/
def empty : Dict α := ⟨[], .nil⟩

/-- What a key finds. -/
def get? (d : Dict α) (key : String) : Option α :=
  d.entries.lookup key

/-- The dictionary in which a key finds a value. -/
def insert (d : Dict α) (key : String) (value : α) : Dict α :=
  ⟨insertEntry key value d.entries, pairwise_insertEntry d.increasing⟩

/-- The dictionary of a list of entries; of two with one key the later counts. -/
def ofList (es : List (String × α)) : Dict α :=
  es.foldl (fun d e => d.insert e.1 e.2) empty

/-- The keys, in increasing order. -/
def keys (d : Dict α) : List String :=
  d.entries.map Prod.fst

/-- The values, in the order of their keys. -/
def values (d : Dict α) : List α :=
  d.entries.map Prod.snd

/-- The dictionary with each value replaced. -/
def map (f : α → β) (d : Dict α) : Dict β :=
  ⟨d.entries.map fun e => (e.1, f e.2), by simpa [Function.comp_def] using d.increasing⟩

theorem lookup_cons_eq (k : String) (e : String × α) (es : List (String × α)) :
    (e :: es).lookup k = if k = e.1 then some e.2 else es.lookup k := by
  obtain ⟨j, v⟩ := e
  by_cases h : k = j
  · simp [h]
  · simp [List.lookup_cons, beq_eq_false_iff_ne.2 h, h]

theorem lookup_insertEntry (key : String) (value : α) (es : List (String × α)) (k : String) :
    (insertEntry key value es).lookup k = if k = key then some value else es.lookup k := by
  induction es with
  | nil =>
    simp [insertEntry, lookup_cons_eq]
  | cons e rest ih =>
    unfold insertEntry
    split
    · exact lookup_cons_eq ..
    · rename_i h₁
      split
      · rename_i hlt
        simp only [lookup_cons_eq, ih]
        have : e.1 ≠ key := fun h => Std.lt_irrefl (h ▸ hlt)
        grind
      · rename_i h₂
        have : key = e.1 := OrderedSet.eq_of_not_lt h₁ h₂
        simp only [lookup_cons_eq]
        grind

@[simp] theorem get?_empty (k : String) : (empty : Dict α).get? k = none := rfl

/-- A key finds what was inserted for it, any other key what it found before. -/
theorem get?_insert (d : Dict α) (key : String) (value : α) (k : String) :
    (d.insert key value).get? k = if k = key then some value else d.get? k :=
  lookup_insertEntry key value d.entries k

theorem lookup_eq_none_of_lt {es : List (String × α)} {k : String}
    (h : ∀ j ∈ es.map Prod.fst, k < j) : es.lookup k = none := by
  induction es with
  | nil => rfl
  | cons e rest ih =>
    have hlt := h e.1 (by simp)
    have hne : k ≠ e.1 := fun he => Std.lt_irrefl (he ▸ hlt)
    rw [lookup_cons_eq, if_neg hne]
    exact ih fun j hj => h j (by simp [hj])

theorem eq_of_lookup {es fs : List (String × α)} (he : (es.map Prod.fst).Pairwise (· < ·))
    (hf : (fs.map Prod.fst).Pairwise (· < ·)) (h : ∀ k, es.lookup k = fs.lookup k) : es = fs := by
  induction es generalizing fs with
  | nil =>
    cases fs with
    | nil => rfl
    | cons f fs => simpa [lookup_cons_eq] using h f.1
  | cons e es ih =>
    cases fs with
    | nil => simpa [lookup_cons_eq] using h e.1
    | cons f fs =>
      rw [List.map_cons, List.pairwise_cons] at he hf
      have hkey : e.1 = f.1 := by
        refine OrderedSet.eq_of_not_lt (fun hlt => ?_) fun hlt => ?_
        · have hnone : List.lookup e.1 (f :: fs) = none := by
            refine lookup_eq_none_of_lt fun j hj => ?_
            rcases List.mem_cons.1 hj with rfl | hj
            · exact hlt
            · exact Std.lt_trans hlt (hf.1 j hj)
          simpa [hnone, lookup_cons_eq] using h e.1
        · have hnone : List.lookup f.1 (e :: es) = none := by
            refine lookup_eq_none_of_lt fun j hj => ?_
            rcases List.mem_cons.1 hj with rfl | hj
            · exact hlt
            · exact Std.lt_trans hlt (he.1 j hj)
          simpa [hnone, lookup_cons_eq] using h f.1
      have hvalue : e.2 = f.2 := by
        have := h e.1
        rw [lookup_cons_eq, lookup_cons_eq, hkey] at this
        simpa using this
      obtain rfl : e = f := Prod.ext hkey hvalue
      congr 1
      refine ih he.2 hf.2 fun k => ?_
      by_cases hk : k = e.1
      · subst hk
        rw [lookup_eq_none_of_lt he.1, lookup_eq_none_of_lt hf.1]
      · have := h k
        rw [lookup_cons_eq, lookup_cons_eq] at this
        simpa [hk, hkey ▸ hk] using this

/-- Dictionaries in which every key finds the same are equal. -/
theorem ext {d e : Dict α} (h : ∀ k, d.get? k = e.get? k) : d = e := by
  have := eq_of_lookup d.increasing e.increasing h
  cases d
  cases e
  simpa using this

end Dict

end Acceptor
