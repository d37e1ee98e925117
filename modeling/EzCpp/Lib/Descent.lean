import Mathlib.Data.Finset.Card
import Mathlib.Logic.Relation

/-!
# Going down

A recursion that visits the children of a node, and theirs, ends within `n` steps (`Ends`), or it
comes to a node that is below itself (`Looped`). Where the nodes with children are told apart, as far
as their children go, by finitely many keys, one of the two is the case after as many steps as there
are keys (`ends_iff`): on a way down without a loop no key comes twice.
-/

namespace EzCpp.Lib

open Relation

variable {N K : Type}

/-- The recursion from `e` ends within `n` steps, that from a node without children in one. -/
def Ends (children : N → List N) : Nat → N → Prop
  | 0, _ => False
  | n + 1, e => ∀ x ∈ children e, Ends children n x

/-- One step down. -/
def Child (children : N → List N) (e x : N) : Prop := x ∈ children e

/-- A node that is below itself can be reached. -/
def Looped (children : N → List N) (e : N) : Prop :=
  ∃ x, ReflTransGen (Child children) e x ∧ TransGen (Child children) x x

variable {children : N → List N} {n m : Nat} {e x : N}

theorem Ends.mono (h : Ends children n e) (hn : n ≤ m) : Ends children m e := by
  induction n generalizing e m with
  | zero => exact absurd h id
  | succ n ih =>
    obtain ⟨m, rfl⟩ := Nat.exists_eq_add_one_of_ne_zero (Nat.ne_of_gt (Nat.zero_lt_of_lt hn))
    exact fun x hx => ih (h x hx) (Nat.le_of_succ_le_succ hn)

/-- Each step down leaves one step less. -/
theorem Ends.below (h : Ends children n e) (hx : TransGen (Child children) e x) :
    ∃ m, m < n ∧ Ends children m x := by
  induction hx with
  | single hx =>
    cases n with
    | zero => exact absurd h id
    | succ n => exact ⟨n, Nat.lt_succ_self n, h _ hx⟩
  | tail _ hx ih =>
    obtain ⟨m, hm, he⟩ := ih
    cases m with
    | zero => exact absurd he id
    | succ m => exact ⟨m, Nat.lt_of_succ_lt hm, he _ hx⟩

theorem Ends.not_looped (h : Ends children n e) : ¬ Looped children e := by
  rintro ⟨x, hx, hloop⟩
  have ends : ∃ m, Ends children m x := by
    rcases reflTransGen_iff_eq_or_transGen.mp hx with rfl | hx
    · exact ⟨n, h⟩
    · obtain ⟨m, -, hm⟩ := h.below hx
      exact ⟨m, hm⟩
  obtain ⟨m, hm⟩ := ends
  induction m using Nat.strongRecOn with
  | ind m ih =>
    obtain ⟨k, hk, he⟩ := hm.below hloop
    exact ih k hk he

theorem Looped.child (hx : x ∈ children e) (h : Looped children x) : Looped children e := by
  obtain ⟨y, hy, hloop⟩ := h
  exact ⟨y, .head hx hy, hloop⟩

section Keys

variable (key : N → K)

/-- **Without a loop, each step down uses up a key.** -/
theorem ends_of_not_looped [DecidableEq K] {keys : Finset K} (hloop : ¬ Looped children e)
    (hkeys : ∀ x, ReflTransGen (Child children) e x → children x ≠ [] → key x ∈ keys)
    (hsame : ∀ x y, ReflTransGen (Child children) e x → ReflTransGen (Child children) e y →
      children x ≠ [] → children y ≠ [] → key x = key y → children x = children y) :
    Ends children (keys.card + 1) e := by
  induction hc : keys.card generalizing keys e with
  | zero =>
    intro x hx
    have hmem := hkeys e .refl (List.ne_nil_of_mem hx)
    rw [Finset.card_eq_zero.mp hc] at hmem
    exact absurd hmem (Finset.notMem_empty _)
  | succ c ih =>
    intro x hx
    have hne : children e ≠ [] := List.ne_nil_of_mem hx
    have hmem := hkeys e .refl hne
    have hcard : (keys.erase (key e)).card = c := by rw [Finset.card_erase_of_mem hmem, hc]; rfl
    refine ih (fun h => hloop (h.child hx)) (fun y hy hyne => ?_)
      (fun y z hy hz => hsame y z (.head hx hy) (.head hx hz)) hcard
    refine Finset.mem_erase.mpr ⟨fun heq => ?_, hkeys y (.head hx hy) hyne⟩
    -- `y` is below `e` and has its children: it is below itself
    have hsame := hsame y e (.head hx hy) .refl hyne hne heq
    have hyx : Child children y x := by
      unfold Child
      rw [hsame]
      exact hx
    exact hloop ⟨y, .head hx hy, TransGen.head' hyx hy⟩

theorem ends_iff [DecidableEq K] {keys : Finset K}
    (hkeys : ∀ x, ReflTransGen (Child children) e x → children x ≠ [] → key x ∈ keys)
    (hsame : ∀ x y, ReflTransGen (Child children) e x → ReflTransGen (Child children) e y →
      children x ≠ [] → children y ≠ [] → key x = key y → children x = children y) :
    Ends children (keys.card + 1) e ↔ ¬ Looped children e :=
  ⟨Ends.not_looped, fun h => ends_of_not_looped key h hkeys hsame⟩

end Keys

/-- Where a number goes down with every step, there is no loop. -/
theorem not_looped_of_lt (rank : N → Nat)
    (h : ∀ x y, ReflTransGen (Child children) e x → y ∈ children x → children y ≠ [] →
      rank y < rank x) : ¬ Looped children e := by
  rintro ⟨x, hx, hloop⟩
  have lower : ∀ y, TransGen (Child children) x y → children y ≠ [] → rank y < rank x := by
    intro y hy
    induction hy with
    | single hy => exact h x _ hx hy
    | tail hz hy ih =>
      exact fun hne => (h _ _ (hx.trans hz.to_reflTransGen) hy hne).trans (ih (List.ne_nil_of_mem hy))
  obtain ⟨y, hy, -⟩ := TransGen.head'_iff.mp hloop
  exact Nat.lt_irrefl _ (lower x hloop (List.ne_nil_of_mem hy))

end EzCpp.Lib
