import Mathlib.Data.List.Basic

/-!
# Equal ranges

`std::ranges::equal_range` looks for the elements of a list that are neither less nor greater than a value.
It may only be asked where the list is partitioned by the value (`Searchable`), and what it returns is known
for such lists alone (`EqualRange.spec`). Nothing else is assumed of the order.
-/

namespace EzCpp.Lib

variable {α : Type} {p : α → Bool} {l : List α} {x : α}

/-- The elements that satisfy `p` come first. -/
def PartitionedBy (p : α → Bool) (l : List α) : Prop := l.Pairwise fun a b => p b = true → p a = true

/-- The list is partitioned by a value: first come the elements that are less, last those that are greater. -/
structure Searchable (less : α → α → Bool) (l : List α) (x : α) : Prop where
  below : PartitionedBy (fun a => less a x) l
  notAbove : PartitionedBy (fun a => !less x a) l
  consistent : ∀ a ∈ l, less a x = true → less x a = false

/-- An implementation of the search. -/
structure EqualRange (α : Type) where
  search : List α → α → (α → α → Bool) → List α
  spec : ∀ l x less, Searchable less l x →
    search l x less = l.filter fun a => !less a x && !less x a

/-- Behind an element that does not satisfy `p`, none does. -/
theorem PartitionedBy.not_of_not_head (h : PartitionedBy p (x :: l)) (hx : p x = false) :
    ∀ a ∈ l, ¬ p a = true := by
  intro a ha hp
  cases hx.symm.trans (List.rel_of_pairwise_cons h ha hp)

theorem dropWhile_eq_filter (h : PartitionedBy p l) : l.dropWhile p = l.filter fun a => !p a := by
  induction l with
  | nil => rfl
  | cons a l ih =>
    have hl : PartitionedBy p l := List.Pairwise.of_cons h
    cases hp : p a with
    | true => rw [List.dropWhile_cons_of_pos hp, ih hl, List.filter_cons_of_neg (by simp [hp])]
    | false =>
      have hall : ∀ b ∈ l, !p b := fun b hb => by simpa using h.not_of_not_head hp b hb
      rw [List.dropWhile_cons_of_neg (by simp [hp]), List.filter_cons_of_pos (by simp [hp]),
        List.filter_eq_self.mpr hall]

theorem takeWhile_eq_filter (h : PartitionedBy p l) : l.takeWhile p = l.filter p := by
  induction l with
  | nil => rfl
  | cons a l ih =>
    have hl : PartitionedBy p l := List.Pairwise.of_cons h
    cases hp : p a with
    | true => rw [List.takeWhile_cons_of_pos hp, List.filter_cons_of_pos hp, ih hl]
    | false =>
      rw [List.takeWhile_cons_of_neg (by simp [hp]), List.filter_cons_of_neg (by simp [hp]),
        List.filter_eq_nil_iff.mpr (h.not_of_not_head hp)]

/-- From the first element that is not less than the value, up to the first one that is greater. -/
def EqualRange.linear (α : Type) : EqualRange α where
  search l x less := (l.dropWhile fun a => less a x).takeWhile fun a => !less x a
  spec l x less h := by
    have hrest : PartitionedBy (fun a => !less x a) (l.filter fun a => !less a x) :=
      List.Pairwise.sublist List.filter_sublist h.notAbove
    rw [dropWhile_eq_filter h.below, takeWhile_eq_filter hrest, List.filter_filter]
    congr 1
    funext a
    exact Bool.and_comm _ _

end EzCpp.Lib
