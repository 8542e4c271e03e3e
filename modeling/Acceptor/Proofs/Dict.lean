/-
What the entries of a dictionary are: those that their keys find (`mem_entries_iff`), after an
insertion (`of_mem_entries_insert`) and when it is made from a list (`get?_ofList`).
-/
import Acceptor.Dict
import Mathlib.Data.List.Nodup

namespace Acceptor.Dict

variable {α : Type} {d : Dict α} {key k : String} {value v : α}

theorem nodup_keys (d : Dict α) : (d.entries.map Prod.fst).Nodup :=
  d.increasing.imp fun {a b} hlt (he : a = b) => Std.lt_irrefl (he ▸ hlt)

theorem lookup_eq_some_iff {es : List (String × α)} (h : (es.map Prod.fst).Nodup) :
    es.lookup k = some v ↔ (k, v) ∈ es := by
  induction es with
  | nil => simp
  | cons e rest ih =>
    rw [List.map_cons, List.nodup_cons] at h
    rw [lookup_cons_eq, List.mem_cons]
    split
    · rename_i hk
      subst hk
      have hnot : (e.1, v) ∉ rest := fun hm => h.1 (List.mem_map.2 ⟨_, hm, rfl⟩)
      simp [hnot, Prod.ext_iff, eq_comm]
    · rename_i hk
      simp [ih h.2, Prod.ext_iff, hk]

/-- The entries are what the keys find. -/
theorem mem_entries_iff : (k, v) ∈ d.entries ↔ d.get? k = some v :=
  (lookup_eq_some_iff d.nodup_keys).symm

theorem mem_keys_iff : k ∈ d.keys ↔ ∃ v, d.get? k = some v := by
  simp only [keys, List.mem_map, Prod.exists, exists_and_right, exists_eq_right, mem_entries_iff]

/-- An entry after an insertion is the one inserted or was there before. -/
theorem of_mem_entries_insert {e : String × α} (h : e ∈ (d.insert key value).entries) :
    e = (key, value) ∨ e ∈ d.entries := by
  obtain ⟨k, v⟩ := e
  rw [mem_entries_iff, get?_insert] at h
  split at h
  · rename_i hk
    cases h
    exact .inl (Prod.ext hk rfl)
  · exact .inr (mem_entries_iff.2 h)

theorem get?_foldl_insert {es : List (String × α)} (h : (es.map Prod.fst).Nodup) :
    (es.foldl (fun d e => d.insert e.1 e.2) d).get? k = (es.lookup k).or (d.get? k) := by
  induction es generalizing d with
  | nil => rfl
  | cons e rest ih =>
    rw [List.map_cons, List.nodup_cons] at h
    rw [List.foldl_cons, ih h.2, get?_insert, lookup_cons_eq]
    split
    · rename_i hk
      subst hk
      have hnone : rest.lookup e.1 = none := by
        rw [Option.eq_none_iff_forall_ne_some]
        intro v hv
        exact h.1 (List.mem_map.2 ⟨_, (lookup_eq_some_iff h.2).1 hv, rfl⟩)
      rw [hnone, Option.none_or, Option.some_or]
    · rfl

/-- A dictionary made from entries with different keys finds each of them. -/
theorem get?_ofList {es : List (String × α)} (h : (es.map Prod.fst).Nodup) :
    (ofList es).get? k = some v ↔ (k, v) ∈ es := by
  rw [ofList, get?_foldl_insert h, get?_empty, Option.or_none, lookup_eq_some_iff h]

/-- A dictionary is made from its own entries. -/
theorem ofList_entries (d : Dict α) : ofList d.entries = d :=
  ext fun _ => Option.ext fun _ => (get?_ofList d.nodup_keys).trans mem_entries_iff

/-- The entries are the keys with what they find. -/
theorem entries_eq_map {f : String → α} (h : ∀ p ∈ d.keys, d.get? p = some (f p)) :
    d.entries = d.keys.map fun p => (p, f p) := by
  rw [keys, List.map_map]
  refine (List.map_id d.entries).symm.trans (List.map_congr_left fun e he => ?_)
  have hfound : d.get? e.1 = some e.2 := mem_entries_iff.1 he
  have hvalue := hfound.symm.trans (h e.1 (List.mem_map.2 ⟨e, he, rfl⟩))
  exact Prod.ext rfl (Option.some.inj hvalue)

end Acceptor.Dict
