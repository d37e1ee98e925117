import Mathlib.Data.Finset.Card
import Mathlib.Data.List.Chain
import Mathlib.Logic.Function.Basic
import Mathlib.Logic.Relation

/-!
# Ancestors

A map to parents is acyclic if nothing is its own ancestor. Where parents are taken from a finite
set, the walk to the ancestors then ends within the size of the set (`Acyclic.exists_ancestors`).
Giving something a parent keeps the map acyclic if, and only if, the new parent is not below it
(`acyclic_update_iff`).
-/

namespace EzCpp.Lib

open Relation

variable {α : Type} {parent : α → Option α} {a b : α} {l : List α} {m n : Nat}

def HasParent (parent : α → Option α) (a b : α) : Prop := parent a = some b

def Acyclic (parent : α → Option α) : Prop := ∀ a, ¬ TransGen (HasParent parent) a a

/-- The ancestors, nearest first, if there are fewer than `n`. -/
def ancestors (parent : α → Option α) : Nat → α → Option (List α)
  | 0, _ => none
  | n + 1, a =>
    match parent a with
    | none => some []
    | some p => (ancestors parent n p).map (p :: ·)

/-! ## The walk up -/

theorem ancestors_of_none (h : parent a = none) : ancestors parent (n + 1) a = some [] := by
  rw [ancestors, h]

theorem ancestors_of_some (h : parent a = some b) :
    ancestors parent (n + 1) a = (ancestors parent n b).map (b :: ·) := by
  rw [ancestors, h]

theorem ancestors_mono (h : ancestors parent n a = some l) (hn : n ≤ m) :
    ancestors parent m a = some l := by
  induction n generalizing m a l with
  | zero => cases h
  | succ n ih =>
    obtain ⟨m, rfl⟩ : ∃ k, m = k + 1 := ⟨m - 1, by omega⟩
    cases hp : parent a with
    | none =>
      rw [ancestors_of_none hp] at h ⊢
      exact h
    | some p =>
      rw [ancestors_of_some hp] at h ⊢
      obtain ⟨l', hl, rfl⟩ := Option.map_eq_some_iff.1 h
      rw [ih hl (by omega)]
      rfl

/-- The walk goes from parent to parent. -/
theorem isChain_ancestors (h : ancestors parent n a = some l) :
    (a :: l).IsChain (HasParent parent) := by
  induction n generalizing a l with
  | zero => cases h
  | succ n ih =>
    cases hp : parent a with
    | none =>
      rw [ancestors_of_none hp] at h
      cases h
      exact .singleton a
    | some p =>
      rw [ancestors_of_some hp] at h
      obtain ⟨l', hl, rfl⟩ := Option.map_eq_some_iff.1 h
      exact .cons_cons hp (ih hl)

theorem ancestors_length (h : ancestors parent n a = some l) : l.length < n := by
  induction n generalizing a l with
  | zero => cases h
  | succ n ih =>
    cases hp : parent a with
    | none =>
      rw [ancestors_of_none hp] at h
      cases h
      exact Nat.succ_pos n
    | some p =>
      rw [ancestors_of_some hp] at h
      obtain ⟨l', hl, rfl⟩ := Option.map_eq_some_iff.1 h
      exact Nat.succ_lt_succ (ih hl)

theorem mem_ancestors (h : ancestors parent n a = some l) :
    b ∈ l ↔ TransGen (HasParent parent) a b := by
  induction n generalizing a l with
  | zero => cases h
  | succ n ih =>
    cases hp : parent a with
    | none =>
      rw [ancestors_of_none hp] at h
      cases h
      refine iff_of_false List.not_mem_nil fun hb => ?_
      obtain ⟨c, hc, -⟩ := TransGen.head'_iff.1 hb
      cases hp.symm.trans hc
    | some p =>
      rw [ancestors_of_some hp] at h
      obtain ⟨l', hl, rfl⟩ := Option.map_eq_some_iff.1 h
      rw [List.mem_cons, ih hl]
      constructor
      · rintro (rfl | hb)
        · exact .single hp
        · exact .head hp hb
      · intro hb
        obtain ⟨c, hc, hcb⟩ := TransGen.head'_iff.1 hb
        cases hp.symm.trans hc
        exact (reflTransGen_iff_eq_or_transGen.1 hcb)

/-- A walk that is not over after `n` steps has gone through `n` parents. -/
theorem exists_path_of_ancestors_eq_none (h : ancestors parent n a = none) :
    ∃ l, l.length = n ∧ (a :: l).IsChain (HasParent parent) := by
  induction n generalizing a with
  | zero => exact ⟨[], rfl, .singleton a⟩
  | succ n ih =>
    cases hp : parent a with
    | none =>
      rw [ancestors_of_none hp] at h
      cases h
    | some p =>
      rw [ancestors_of_some hp] at h
      obtain ⟨l, hl, hc⟩ := ih (Option.map_eq_none_iff.1 h)
      exact ⟨p :: l, congrArg (· + 1) hl, .cons_cons hp hc⟩

theorem Acyclic.nodup_path (ha : Acyclic parent) (h : l.IsChain (HasParent parent)) : l.Nodup := by
  have pairwise : l.Pairwise (TransGen (HasParent parent)) :=
    List.isChain_iff_pairwise.1 (h.imp fun _ _ hab => .single hab)
  refine pairwise.imp fun hab he => ?_
  subst he
  exact ha _ hab

theorem mem_of_path {S : Finset α} (hS : ∀ a p, parent a = some p → p ∈ S)
    (h : (a :: l).IsChain (HasParent parent)) : ∀ b ∈ l, b ∈ S := by
  induction l generalizing a with
  | nil => exact nofun
  | cons p l ih =>
    obtain ⟨hp, h⟩ := List.isChain_cons_cons.1 h
    exact List.forall_mem_cons.2 ⟨hS a p hp, ih h⟩

/-- **The walk from everywhere ends**, after no more steps than there are parents. -/
theorem Acyclic.exists_ancestors (ha : Acyclic parent) {S : Finset α}
    (hS : ∀ a p, parent a = some p → p ∈ S) (a : α) :
    ∃ l, ancestors parent (S.card + 1) a = some l := by
  cases h : ancestors parent (S.card + 1) a with
  | some l => exact ⟨l, rfl⟩
  | none =>
    obtain ⟨l, hl, hc⟩ := exists_path_of_ancestors_eq_none h
    have nodup : l.Nodup := (List.nodup_cons.1 (ha.nodup_path hc)).2
    have sub : (⟨l, nodup⟩ : Finset α) ⊆ S := fun b hb => mem_of_path hS hc b hb
    have : l.length ≤ S.card := Finset.card_le_card sub
    omega

theorem Acyclic.antisymm (ha : Acyclic parent) (h : ReflTransGen (HasParent parent) a b)
    (h' : ReflTransGen (HasParent parent) b a) : a = b := by
  rcases reflTransGen_iff_eq_or_transGen.1 h with he | h
  · exact he.symm
  · exact absurd (h.trans_left h') (ha a)

/-! ## New parents -/

variable [DecidableEq α] {r s : α}

theorem hasParent_update_of_ne (h : a ≠ s) :
    HasParent (Function.update parent s (some r)) a b ↔ HasParent parent a b := by
  rw [HasParent, HasParent, Function.update_of_ne h]

theorem hasParent_update_self : HasParent (Function.update parent s (some r)) s b ↔ b = r := by
  rw [HasParent, Function.update_self, Option.some.injEq, eq_comm]

/-- A path in the new map is an old one, or goes from `s` to `r` on its way. -/
theorem transGen_update (h : TransGen (HasParent (Function.update parent s (some r))) a b) :
    TransGen (HasParent parent) a b ∨
      ReflTransGen (HasParent parent) a s ∧ ReflTransGen (HasParent parent) r b := by
  have step : ∀ {a b}, HasParent (Function.update parent s (some r)) a b →
      HasParent parent a b ∨ a = s ∧ b = r := by
    intro a b hab
    by_cases hs : a = s
    · subst hs
      exact .inr ⟨rfl, hasParent_update_self.1 hab⟩
    · exact .inl ((hasParent_update_of_ne hs).1 hab)
  induction h with
  | single hab =>
    rcases step hab with hab | ⟨rfl, rfl⟩
    · exact .inl (.single hab)
    · exact .inr ⟨.refl, .refl⟩
  | tail _ hbc ih =>
    rcases step hbc with hbc | ⟨rfl, rfl⟩
    · rcases ih with h | ⟨h, h'⟩
      · exact .inl (h.tail hbc)
      · exact .inr ⟨h, h'.tail hbc⟩
    · rcases ih with h | ⟨h, -⟩
      · exact .inr ⟨h.to_reflTransGen, .refl⟩
      · exact .inr ⟨h, .refl⟩

/-- The way up to `s` is still there. -/
theorem reflTransGen_update (h : ReflTransGen (HasParent parent) a s) :
    ReflTransGen (HasParent (Function.update parent s (some r))) a s := by
  induction h using ReflTransGen.head_induction_on with
  | refl => exact .refl
  | @head a b hab _ ih =>
    by_cases hs : a = s
    · rw [hs]
    · exact .head ((hasParent_update_of_ne hs).2 hab) ih

/-- **A root can be given any parent that is not below it**, and no other one. -/
theorem acyclic_update_iff (ha : Acyclic parent) :
    Acyclic (Function.update parent s (some r)) ↔ ¬ ReflTransGen (HasParent parent) r s := by
  constructor
  · intro h hr
    exact h r (.tail' (reflTransGen_update hr) (hasParent_update_self.2 rfl))
  · intro hr a h
    rcases transGen_update h with h | ⟨h, h'⟩
    · exact ha a h
    · exact hr (h'.trans h)

end EzCpp.Lib
