/-
The bands of a sweep: each holds the characters of a segment together with the labels that read
them. Joining bands that touch and have the same members loses no character and moves none to
other members, keeps them in order, and leaves no two that could still be joined
(`joinOf_joinBands`).
-/
import Acceptor.Proofs.CharClass.Segments

namespace Acceptor

namespace CharClass

/-- Bands of proper intervals, one behind the other. -/
structure Orderly (bs : List Band) : Prop where
  proper : ∀ b ∈ bs, b.interval.Proper
  sorted : bs.Pairwise fun a b => a.interval.hi < b.interval.lo

/-- No band touches one with the same members. -/
def Parted (bs : List Band) : Prop :=
  bs.Pairwise fun a b => next? a.interval.hi = some b.interval.lo → a.members ≠ b.members

theorem Orderly.tail {b : Band} {bs : List Band} (h : Orderly (b :: bs)) : Orderly bs :=
  ⟨fun c hc => h.proper c (List.mem_cons_of_mem _ hc), (List.pairwise_cons.1 h.sorted).2⟩

/-- A band holds a character with the given members. -/
def Covers (bs : List Band) (c : Char) (m : IndexSet) : Prop :=
  ∃ b ∈ bs, b.interval.contains c = true ∧ b.members = m

@[simp] theorem covers_cons {b : Band} {bs : List Band} {c : Char} {m : IndexSet} :
    Covers (b :: bs) c m ↔ (b.interval.contains c = true ∧ b.members = m) ∨ Covers bs c m := by
  simp [Covers]

/-- At most one band holds a character. -/
theorem Orderly.members_filter_eq {bs : List Band} (h : Orderly bs) {c : Char} {m : IndexSet}
    (hc : Covers bs c m) :
    (bs.filter (·.interval.contains c)).map (·.members) = [m] := by
  induction bs with
  | nil =>
    obtain ⟨b, hb, -⟩ := hc
    cases hb
  | cons b rest ih =>
    have hsep := (List.pairwise_cons.1 h.sorted).1
    cases hb : b.interval.contains c with
    | true =>
      have hnone : ∀ x ∈ rest, x.interval.contains c = false := by
        intro x hx
        rw [Bool.eq_false_iff, Ne, Interval.contains_eq_true_iff]
        rintro ⟨hlo, -⟩
        have hhi := (Interval.contains_eq_true_iff.1 hb).2
        exact absurd (lt_of_lt_of_le (hsep x hx) hlo) (not_lt.2 hhi)
      rcases covers_cons.1 hc with ⟨-, rfl⟩ | ⟨x, hx, hxc, -⟩
      · simpa [hb] using hnone
      · rw [hnone x hx] at hxc
        cases hxc
    | false =>
      rcases covers_cons.1 hc with ⟨hb', -⟩ | hc
      · rw [hb] at hb'
        cases hb'
      · rw [List.filter_cons, hb]
        exact ih h.tail hc

/-! ## Joining -/

/-- Two bands that touch make up one interval. -/
theorem contains_join {a b : Interval} (ha : a.Proper) (hb : b.Proper)
    (h : next? a.hi = some b.lo) (c : Char) :
    Interval.contains ⟨a.lo, b.hi⟩ c = true ↔ a.contains c = true ∨ b.contains c = true := by
  simp only [Interval.contains_eq_true_iff]
  constructor
  · rintro ⟨h₁, h₂⟩
    by_cases hc : c ≤ a.hi
    · exact .inl ⟨h₁, hc⟩
    · exact .inr ⟨(le_of_next? h).2 (not_le.1 hc), h₂⟩
  · have hlt := lt_of_next? h
    rintro (⟨h₁, h₂⟩ | ⟨h₁, h₂⟩)
    · exact ⟨h₁, le_trans h₂ (le_trans (le_of_lt hlt) hb)⟩
    · exact ⟨le_trans ha (le_trans (le_of_lt hlt) h₁), h₂⟩

theorem orderly_cons {b : Band} {bs : List Band} (hb : b.interval.Proper) (hbs : Orderly bs)
    (h : ∀ c ∈ bs, b.interval.hi < c.interval.lo) : Orderly (b :: bs) :=
  ⟨fun c hc => (List.mem_cons.1 hc).elim (fun he => he ▸ hb) (hbs.proper c),
    List.pairwise_cons.2 ⟨h, hbs.sorted⟩⟩

/-- Every band is above what lies below all that some other bands hold. -/
theorem lt_of_covers {bs cs : List Band} {h : Char} (hbs : Orderly bs)
    (hiff : ∀ c m, Covers bs c m → Covers cs c m) (hcs : ∀ b ∈ cs, h < b.interval.lo) :
    ∀ b ∈ bs, h < b.interval.lo := by
  intro b hb
  have hself : b.interval.contains b.interval.lo = true :=
    Interval.contains_eq_true_iff.2 ⟨le_refl _, hbs.proper b hb⟩
  obtain ⟨x, hx, hc, -⟩ := hiff _ _ ⟨b, hb, hself, rfl⟩
  exact lt_of_lt_of_le (hcs x hx) (Interval.contains_eq_true_iff.1 hc).1

/-- What joining bands keeps: their order, what they hold, and that no two that could be joined
are left. -/
structure JoinOf (bs js : List Band) : Prop where
  orderly : Orderly js
  covers : ∀ c m, Covers js c m ↔ Covers bs c m
  parted : Parted js

/-- A band that is not to be joined with the first of the others stays apart from all of them. -/
theorem parted_cons {b x : Band} {more : List Band} (hord : Orderly (b :: x :: more))
    (h : ¬ (b.members = x.members ∧ next? b.interval.hi = some x.interval.lo))
    (hp : Parted (x :: more)) : Parted (b :: x :: more) := by
  refine List.pairwise_cons.2 ⟨fun y hy ht hm => ?_, hp⟩
  rcases List.mem_cons.1 hy with rfl | hy
  · exact h ⟨hm, ht⟩
  · -- the band between them leaves no room for the two to touch
    have hbx := (List.pairwise_cons.1 hord.sorted).1 x List.mem_cons_self
    have hxy := (List.pairwise_cons.1 hord.tail.sorted).1 y hy
    have hx := hord.proper x (List.mem_cons_of_mem _ List.mem_cons_self)
    have hle := (le_of_next? ht).2 hbx
    exact absurd (lt_of_le_of_lt hx hxy) (not_lt.2 hle)

theorem joinOf_joinBands {bs : List Band} (h : Orderly bs) : JoinOf bs (joinBands bs) := by
  induction bs with
  | nil => exact ⟨h, fun _ _ => Iff.rfl, .nil⟩
  | cons b rest ih =>
    obtain ⟨hord, hcov, hpart⟩ := ih h.tail
    have hb := h.proper b List.mem_cons_self
    have hlt : ∀ x ∈ joinBands rest, b.interval.hi < x.interval.lo :=
      lt_of_covers hord (fun c m => (hcov c m).1) (List.pairwise_cons.1 h.sorted).1
    unfold joinBands
    split
    · rename_i hnil
      rw [hnil] at hcov
      refine ⟨⟨fun x hx => ?_, List.pairwise_singleton _ _⟩, fun c m => ?_,
        List.pairwise_singleton _ _⟩
      · exact List.mem_singleton.1 hx ▸ hb
      · rw [covers_cons, covers_cons, hcov]
    · rename_i x more hcons
      rw [hcons] at hord hcov hpart hlt
      have hx := hord.proper x List.mem_cons_self
      have hxmore := (List.pairwise_cons.1 hord.sorted).1
      split
      · rename_i hjoin
        obtain ⟨hm, ht⟩ := hjoin
        have hbx := hlt x List.mem_cons_self
        refine ⟨orderly_cons ?_ hord.tail hxmore, fun c m => ?_, ?_⟩
        · exact le_trans hb (le_trans (le_of_lt hbx) hx)
        · rw [covers_cons, covers_cons, ← hcov, covers_cons, contains_join hb hx ht c, hm,
            or_and_right, or_assoc]
        · refine List.pairwise_cons.2 ⟨fun y hy hty => ?_, (List.pairwise_cons.1 hpart).2⟩
          rw [hm]
          exact (List.pairwise_cons.1 hpart).1 y hy hty
      · rename_i hapart
        have hall : Orderly (b :: x :: more) := orderly_cons hb hord hlt
        refine ⟨hall, fun c m => ?_, parted_cons hall hapart hpart⟩
        rw [covers_cons, hcov, covers_cons]

/-! ## The bands of some labels -/

/-- The positions of the labels that read a character. -/
abbrev readers (labels : List Label) (c : Char) : IndexSet :=
  .positions (·.reads c) labels

/-- The bands before they are joined. -/
abbrev bandsOf (labels : List Label) : List Band :=
  (segmentsOf (regionOf labels)).filterMap (band? labels (regionOf labels))

theorem band?_eq_some_iff {labels : List Label} {region : List Interval} {s : Interval} {b : Band} :
    band? labels region s = some b ↔ region.any (·.contains s.lo) = true ∧
      (readers labels s.lo).isEmpty = false ∧ b = ⟨s, readers labels s.lo⟩ := by
  simp only [band?, Option.ite_none_right_eq_some, Bool.and_eq_true, Option.some.injEq,
    Bool.not_eq_eq_eq_not, Bool.not_true, and_assoc]
  rw [eq_comm (a := b)]

theorem mem_bandsOf {labels : List Label} {b : Band} :
    b ∈ bandsOf labels ↔ b.interval ∈ segmentsOf (regionOf labels) ∧
      (regionOf labels).any (·.contains b.interval.lo) = true ∧
      (readers labels b.interval.lo).isEmpty = false ∧
      b.members = readers labels b.interval.lo := by
  rw [List.mem_filterMap]
  constructor
  · rintro ⟨s, hs, hb⟩
    obtain ⟨h₁, h₂, rfl⟩ := band?_eq_some_iff.1 hb
    exact ⟨hs, h₁, h₂, rfl⟩
  · rintro ⟨hs, h₁, h₂, h₃⟩
    exact ⟨b.interval, hs, band?_eq_some_iff.2 ⟨h₁, h₂, h₃ ▸ rfl⟩⟩

theorem orderly_bandsOf (labels : List Label) : Orderly (bandsOf labels) := by
  have hsorted := (cutPoints (regionOf labels)).increasing
  refine ⟨fun b hb => proper_of_mem_segments hsorted (mem_bandsOf.1 hb).1, ?_⟩
  refine List.pairwise_filterMap.2 ((segments_pairwise hsorted).imp fun {s u} hsu b hb c hc => ?_)
  obtain ⟨-, -, rfl⟩ := band?_eq_some_iff.1 hb
  obtain ⟨-, -, rfl⟩ := band?_eq_some_iff.1 hc
  exact hsu

/-- Within a segment the labels that read a character stay the same. -/
theorem readers_eq_of_mem_segments {labels : List Label} {s : Interval}
    (hs : s ∈ segmentsOf (regionOf labels)) {c : Char} (hc : s.contains c = true) :
    readers labels c = readers labels s.lo := by
  refine OrderedSet.ext fun i => ?_
  rw [IndexSet.mem_positions, IndexSet.mem_positions]
  refine exists_congr fun l => and_congr_right fun hl => ?_
  rw [reads_eq_of_mem_segments hs hc (List.mem_of_getElem? hl)]

/-- The bands hold the characters of the region that some label reads, each with its readers. -/
theorem covers_bandsOf {labels : List Label} {c : Char} {m : IndexSet} :
    Covers (bandsOf labels) c m ↔ (∃ i ∈ regionOf labels, i.contains c = true) ∧
      (readers labels c).isEmpty = false ∧ m = readers labels c := by
  constructor
  · rintro ⟨b, hb, hc, rfl⟩
    obtain ⟨hs, hr, hne, hm⟩ := mem_bandsOf.1 hb
    rw [hm, ← readers_eq_of_mem_segments hs hc] at *
    obtain ⟨i, hi, hlo⟩ := List.any_eq_true.1 hr
    exact ⟨⟨i, hi, by rw [contains_iff_of_mem_segments hs hc hi, hlo]⟩, hne, rfl⟩
  · rintro ⟨⟨i, hi, hic⟩, hne, rfl⟩
    obtain ⟨s, hs, hc⟩ := exists_segment hi hic
    have hreaders := readers_eq_of_mem_segments hs hc
    refine ⟨⟨s, readers labels s.lo⟩, mem_bandsOf.2 ⟨hs, ?_, hreaders ▸ hne, rfl⟩, hc,
      hreaders.symm⟩
    exact List.any_eq_true.2 ⟨i, hi, by rw [← contains_iff_of_mem_segments hs hc hi, hic]⟩

end CharClass

end Acceptor
