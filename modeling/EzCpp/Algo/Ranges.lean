import EzCpp.Lib.EqualRange
import Mathlib.Data.Int.Order.Basic
import Mathlib.Data.Set.Basic

/-!
# Merging ranges

`merge` goes through one list of ranges and looks each of them up in the other one, in the order in which a
range is less than another if it ends before the other begins. On ranges in general that is not an order that
a search may use: ranges that overlap count as equal. In a list of disjoint ranges it partitions the list
(`Separated.searchable`).
-/

namespace EzCpp.Algo

open EzCpp.Lib

/-- `begin` and `end`, which belong to the range. They are compared and no more, so that it does not matter how
wide they are. -/
structure Range where
  first : Int
  last : Int
deriving DecidableEq, Repr

abbrev Ranges := List Range

def Range.contains (r : Range) (val : Int) : Bool := r.first ≤ val && val ≤ r.last

def hasOverlap (lhs rhs : Range) : Bool :=
  lhs.contains rhs.first || lhs.contains rhs.last || rhs.contains lhs.first || rhs.contains lhs.last

def getOverlap (lhs rhs : Range) : Option Range :=
  if hasOverlap lhs rhs then some ⟨max lhs.first rhs.first, min lhs.last rhs.last⟩ else none

/-- The comparison of the search. -/
def endsBefore (lhs rhs : Range) : Bool := lhs.last < rhs.first

/-- `none` is the exception of `value()` on an optional that is empty. -/
def merge (equalRange : EqualRange Range) (rngs1 rngs2 : Ranges) : Option Ranges :=
  rngs1.foldlM (fun result range =>
    (equalRange.search rngs2 range endsBefore).foldlM (fun result overlapping =>
      (getOverlap range overlapping).map fun overlap => result ++ [overlap]) result) []

/-- Ranges that are not empty, in order, and no two of them overlap. -/
structure Separated (rngs : Ranges) : Prop where
  nonempty : ∀ r ∈ rngs, r.first ≤ r.last
  ordered : rngs.Pairwise fun a b => a.last < b.first

/-- What lies in one of the ranges. -/
def covered (rngs : Ranges) : Set Int := {n | ∃ r ∈ rngs, r.contains n = true}

/-! ## Overlaps -/

variable {r s t : Range} {rngs rngs1 rngs2 result : Ranges} {n : Int}

/-- Neither ends before the other begins. -/
def overlaps (r s : Range) : Bool := !endsBefore s r && !endsBefore r s

theorem contains_iff : r.contains n = true ↔ r.first ≤ n ∧ n ≤ r.last := by
  simp only [Range.contains, Bool.and_eq_true, decide_eq_true_eq]

theorem overlaps_iff : overlaps r s = true ↔ r.first ≤ s.last ∧ s.first ≤ r.last := by
  simp only [overlaps, endsBefore, Bool.and_eq_true, Bool.not_eq_true', decide_eq_false_iff_not, not_lt]

/-- The range that two overlapping ranges have in common. -/
def common (r s : Range) : Range := ⟨max r.first s.first, min r.last s.last⟩

theorem contains_common : (common r s).contains n = true ↔ r.contains n = true ∧ s.contains n = true := by
  simp only [contains_iff, common, Int.max_le, Int.le_min]
  exact and_and_and_comm

theorem getOverlap_of_overlaps (h : overlaps r s = true) :
    getOverlap r s = some (common r s) := by
  obtain ⟨hle, hge⟩ := overlaps_iff.mp h
  refine if_pos ?_
  simp only [hasOverlap, Bool.or_eq_true, contains_iff]
  omega

theorem common_nonempty (hr : r.first ≤ r.last) (hs : s.first ≤ s.last) (h : overlaps r s = true) :
    (common r s).first ≤ (common r s).last := by
  obtain ⟨hle, hge⟩ := overlaps_iff.mp h
  simp only [common]
  omega

/-! ## The search -/

/-- **A list of disjoint ranges is partitioned by every range.** -/
theorem Separated.searchable (h : Separated rngs) (hr : r.first ≤ r.last) :
    Searchable endsBefore rngs r where
  below := by
    refine h.ordered.imp_of_mem fun {a b} _ hb hab => ?_
    have hle := h.nonempty b hb
    simp only [endsBefore, decide_eq_true_eq]
    omega
  notAbove := by
    refine h.ordered.imp_of_mem fun {a b} ha _ hab => ?_
    have hle := h.nonempty a ha
    simp only [endsBefore, Bool.not_eq_true', decide_eq_false_iff_not]
    omega
  consistent a ha := by
    have hle := h.nonempty a ha
    simp only [endsBefore, decide_eq_true_eq, decide_eq_false_iff_not]
    omega

theorem Separated.search_eq (h : Separated rngs) (hr : r.first ≤ r.last) (equalRange : EqualRange Range) :
    equalRange.search rngs r endsBefore = rngs.filter (overlaps r) :=
  equalRange.spec rngs r endsBefore (h.searchable hr)

/-! ## The loops -/

/-- The loop over the ranges that overlap with one of them. -/
theorem foldlM_getOverlap (h : ∀ s ∈ rngs, overlaps r s = true) (result : Ranges) :
    rngs.foldlM (fun result s => (getOverlap r s).map fun overlap => result ++ [overlap]) result =
      some (result ++ rngs.map (common r)) := by
  induction rngs generalizing result with
  | nil => simp
  | cons s rngs ih =>
    obtain ⟨hs, hrngs⟩ := List.forall_mem_cons.mp h
    rw [List.foldlM_cons, getOverlap_of_overlaps hs, Option.map_some, Option.bind_eq_bind,
      Option.bind_some, ih hrngs, List.map_cons, List.append_assoc, List.singleton_append]

/-- What the ranges of one list have in common with those of the other one. -/
def commons (rngs1 rngs2 : Ranges) : Ranges :=
  rngs1.flatMap fun r => (rngs2.filter (overlaps r)).map (common r)

/-- **No overlap that is asked for is missing.** -/
theorem merge_eq (equalRange : EqualRange Range) (h1 : ∀ r ∈ rngs1, r.first ≤ r.last)
    (h2 : Separated rngs2) : merge equalRange rngs1 rngs2 = some (commons rngs1 rngs2) := by
  have loop : ∀ result : Ranges, rngs1.foldlM (fun result range =>
      (equalRange.search rngs2 range endsBefore).foldlM (fun result overlapping =>
        (getOverlap range overlapping).map fun overlap => result ++ [overlap]) result) result =
      some (result ++ commons rngs1 rngs2) := by
    induction rngs1 with
    | nil => exact fun result => congrArg some (List.append_nil result).symm
    | cons r rngs1 ih =>
      intro result
      obtain ⟨hr, hrngs⟩ := List.forall_mem_cons.mp h1
      have hoverlap : ∀ s ∈ rngs2.filter (overlaps r), overlaps r s = true :=
        fun s hs => (List.mem_filter.mp hs).2
      rw [List.foldlM_cons, h2.search_eq hr, foldlM_getOverlap hoverlap, Option.bind_eq_bind,
        Option.bind_some, ih hrngs, commons, commons, List.flatMap_cons, List.append_assoc]
  exact loop []

theorem mem_commons : t ∈ commons rngs1 rngs2 ↔
    ∃ r ∈ rngs1, ∃ s ∈ rngs2, overlaps r s = true ∧ common r s = t := by
  simp only [commons, List.mem_flatMap, List.mem_map, List.mem_filter, and_assoc]

theorem covered_commons : covered (commons rngs1 rngs2) = covered rngs1 ∩ covered rngs2 := by
  ext n
  constructor
  · rintro ⟨t, ht, hn⟩
    obtain ⟨r, hr, s, hs, -, rfl⟩ := mem_commons.mp ht
    obtain ⟨hnr, hns⟩ := contains_common.mp hn
    exact ⟨⟨r, hr, hnr⟩, s, hs, hns⟩
  · rintro ⟨⟨r, hr, hnr⟩, s, hs, hns⟩
    have hoverlap : overlaps r s = true := by
      have hr := contains_iff.mp hnr
      have hs := contains_iff.mp hns
      exact overlaps_iff.mpr ⟨by omega, by omega⟩
    exact ⟨common r s, mem_commons.mpr ⟨r, hr, s, hs, hoverlap, rfl⟩, contains_common.mpr ⟨hnr, hns⟩⟩

theorem Separated.commons (h1 : Separated rngs1) (h2 : Separated rngs2) :
    Separated (commons rngs1 rngs2) where
  nonempty t ht := by
    obtain ⟨r, hr, s, hs, hoverlap, rfl⟩ := mem_commons.mp ht
    exact common_nonempty (h1.nonempty r hr) (h2.nonempty s hs) hoverlap
  ordered := by
    refine List.pairwise_flatMap.mpr ⟨fun r _ => ?_, h1.ordered.imp fun {a b} hab x hx y hy => ?_⟩
    · -- the overlaps with one range follow one another as the ranges of the second list do
      refine List.pairwise_map.mpr ((h2.ordered.sublist List.filter_sublist).imp fun {a b} hab => ?_)
      simp only [common]
      omega
    · -- those with different ranges follow one another as these do
      obtain ⟨s, -, rfl⟩ := List.mem_map.mp hx
      obtain ⟨t, -, rfl⟩ := List.mem_map.mp hy
      simp only [common]
      omega

/-- **Merging computes the intersection.** -/
theorem merge_intersection (equalRange : EqualRange Range) (rngs1 rngs2 : Ranges)
    (h1 : Separated rngs1) (h2 : Separated rngs2) :
    ∃ result, merge equalRange rngs1 rngs2 = some result ∧ Separated result ∧
      covered result = covered rngs1 ∩ covered rngs2 :=
  ⟨_, merge_eq equalRange h1.nonempty h2, h1.commons h2, covered_commons⟩

/-- Ranges that touch, and one that spans two. -/
theorem merge_intersection_spanning :
    Separated [⟨1, 3⟩, ⟨5, 8⟩, ⟨9, 15⟩] ∧ Separated [⟨3, 5⟩, ⟨7, 11⟩] ∧
      ∃ result, merge (.linear Range) [⟨1, 3⟩, ⟨5, 8⟩, ⟨9, 15⟩] [⟨3, 5⟩, ⟨7, 11⟩] = some result ∧
        Separated result ∧ covered result =
          covered [⟨1, 3⟩, ⟨5, 8⟩, ⟨9, 15⟩] ∩ covered [⟨3, 5⟩, ⟨7, 11⟩] := by
  have h1 : Separated [⟨1, 3⟩, ⟨5, 8⟩, ⟨9, 15⟩] := ⟨by decide, by decide⟩
  have h2 : Separated [⟨3, 5⟩, ⟨7, 11⟩] := ⟨by decide, by decide⟩
  exact ⟨h1, h2, merge_intersection (.linear Range) _ _ h1 h2⟩

/-- The first run of `main`. -/
example : merge (.linear Range) [⟨1, 3⟩, ⟨5, 8⟩, ⟨9, 15⟩] [⟨1, 2⟩, ⟨7, 8⟩] = some [⟨1, 2⟩, ⟨7, 8⟩] := by
  decide

end EzCpp.Algo
