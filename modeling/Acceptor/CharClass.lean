/-
Splitting labels that overlap into disjoint classes of characters, so that the characters of a
class are read by the same labels. The intervals of the labels cut the characters into segments;
within a segment all characters are the same to every label. Classes that touch and are read by
the same labels are joined.
-/
import Acceptor.IndexSet
import Acceptor.Label

namespace Acceptor

/-- A class of characters and the positions of the labels that read them. -/
structure CharClass where
  label : Label
  members : IndexSet
deriving DecidableEq

/-- An interval of characters and the positions of the labels that read them. -/
structure Band where
  interval : Interval
  members : IndexSet
deriving DecidableEq

namespace CharClass

/-- The characters at which being in one of the intervals can change. -/
def cutPoints (is : List Interval) : OrderedSet Char :=
  .ofList (is.flatMap fun i => i.lo :: (next? i.hi).toList)

/-- The intervals from each cut point up to the next, the last one up to the last character. -/
def segments : List Char → List Interval
  | [] => []
  | [p] => [⟨p, lastChar⟩]
  | p :: q :: rest => ⟨p, previous q⟩ :: segments (q :: rest)

/-- The segment with the labels that read it, where it lies in the region and some label does. -/
def band? (labels : List Label) (region : List Interval) (s : Interval) : Option Band :=
  let members := IndexSet.positions (·.reads s.lo) labels
  if region.any (·.contains s.lo) && !members.isEmpty then some ⟨s, members⟩ else none

/-- Joins bands that touch and are read by the same labels. -/
def joinBands : List Band → List Band
  | [] => []
  | b :: rest =>
    match joinBands rest with
    | [] => [b]
    | c :: more =>
      if b.members = c.members ∧ next? b.interval.hi = some c.interval.lo then
        ⟨⟨b.interval.lo, c.interval.hi⟩, b.members⟩ :: more
      else b :: c :: more

/-- The label of an interval: a literal where its text reads back as one, else a range. -/
def intervalLabel (i : Interval) : Label :=
  if i.lo = i.hi ∧ Label.read? [i.lo] = some (.literal i.lo) then .literal i.lo
  else .range i.lo i.hi

/-- Joins intervals that overlap or touch, given in order of their lower ends after `current`. -/
def mergeFrom (current : Interval) : List Interval → List Interval
  | [] => [current]
  | i :: rest =>
    if (next? current.hi).all (i.lo ≤ ·) then
      mergeFrom ⟨current.lo, if current.hi < i.hi then i.hi else current.hi⟩ rest
    else current :: mergeFrom i rest

/-- Joins intervals that overlap or touch. -/
def merge (is : List Interval) : List Interval :=
  match is.mergeSort Interval.notAfter with
  | [] => []
  | i :: rest => mergeFrom i rest

/-- The class of the characters outside the region, which the cofinite labels read. -/
def cofiniteClass (labels : List Label) (region : List Interval) : List CharClass :=
  let members := IndexSet.positions Label.isCofinite labels
  if members.isEmpty then []
  else [⟨if region.isEmpty then .any else .noneOf (merge region), members⟩]

/-- The classes of some labels: first those inside the intervals of the labels, in order, then
that of all other characters, if some label reads them. -/
def partition (labels : List Label) : List CharClass :=
  let region := labels.flatMap Label.intervals
  let bands := (segments (cutPoints region).toList).filterMap (band? labels region)
  (joinBands bands).map (fun b => ⟨intervalLabel b.interval, b.members⟩)
    ++ cofiniteClass labels region

end CharClass

end Acceptor
