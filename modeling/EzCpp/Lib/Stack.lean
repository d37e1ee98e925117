import Mathlib.Data.List.Forall2

/-!
# Stacks that keep what is below

A stack is a list, its top first. `Above R k l m` says that `m` is the stack `l` again, each frame
related by `R` to what it was, with `k` more frames on top. Balanced work leaves `k = 0`; work that
is broken off leaves frames behind, and a later pop then removes one of these.
-/

namespace EzCpp.Lib

variable {α : Type} {R : α → α → Prop} {l m n : List α} {j k : Nat}

def Above (R : α → α → Prop) (k : Nat) (l m : List α) : Prop := List.Forall₂ R l (m.drop k)

theorem forall₂_trans [IsTrans α R] (h : List.Forall₂ R l m) (h' : List.Forall₂ R m n) :
    List.Forall₂ R l n := by
  induction h generalizing n with
  | nil => exact h'
  | cons ab _ ih =>
    cases h' with
    | cons bc rest => exact .cons (IsTrans.trans _ _ _ ab bc) (ih rest)

namespace Above

theorem refl [Std.Refl R] (l : List α) : Above R 0 l l := List.forall₂_refl l

theorem trans [IsTrans α R] (h : Above R k l m) (h' : Above R j m n) : Above R (k + j) l n := by
  have below := List.forall₂_drop k h'
  rw [List.drop_drop, Nat.add_comm] at below
  exact forall₂_trans h below

theorem push [Std.Refl R] (x : α) (l : List α) : Above R 1 l (x :: l) := List.forall₂_refl l

/-- Popping takes one of the frames that are on top, if there are any. -/
theorem pop {x : α} (h : Above R k (x :: l) m) : Above R k l m.tail := by
  obtain ⟨y, rest, -, below, hm⟩ := List.forall₂_cons_left_iff.1 h
  rw [Above, ← List.drop_one, List.drop_drop, Nat.add_comm, ← List.drop_drop, hm]
  exact below

theorem length (h : Above R k l m) : m.length - k = l.length := by
  rw [← List.length_drop, ← h.length_eq]

theorem forall₂_iff (hl : l ≠ []) (h : Above R k l m) : List.Forall₂ R l m ↔ k = 0 := by
  constructor
  · intro same
    have := h.length
    have := same.length_eq
    have := List.length_pos_of_ne_nil hl
    omega
  · rintro rfl
    exact h

end Above

end EzCpp.Lib
