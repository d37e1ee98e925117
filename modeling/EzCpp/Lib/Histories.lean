import EzCpp.Lib.Coroutine

/-!
# Histories

The actions performed so far are the history of a state. An invariant of histories says what an
invariant of states cannot: which storage has been made, and by whom. What holds after a history and
after all that go on from it can be said of a value once and used wherever the value turns up.

`Ensures h m Q` is about a computation `m` that starts after the history `h`: at every moment of its
run the invariant holds, and where it returns `Q` holds of what it returns. The rules follow the
operations of the monad.
-/

namespace EzCpp.Lib.Coroutine

variable {σ ω ε α β : Type} {apply : σ → ω → σ}

/-- Run after the history `h`, `m` keeps the invariant and returns what is as `Q` says. -/
def Ensures (start : σ) (I : List ω → Prop) (h : List ω) (m : Coroutine apply ε α)
    (Q : List ω → α → Prop) : Prop :=
  I h → (∀ l, l <+: (m (h.foldl apply start)).log → I (h ++ l)) ∧
    ∀ a, (m (h.foldl apply start)).exit = .ok a → Q (h ++ (m (h.foldl apply start)).log) a

namespace Ensures

variable {start : σ} {I : List ω → Prop} {h : List ω} {m : Coroutine apply ε α}
  {Q R : List ω → α → Prop}

/-- The invariant holds at the end. -/
theorem last (hm : m.Ensures start I h Q) (hi : I h) : I (h ++ (m (h.foldl apply start)).log) :=
  (hm hi).1 _ (List.prefix_refl _)

theorem of_quiet {x : Exit ε α} (hm : m (h.foldl apply start) = ⟨x, []⟩)
    (hQ : I h → ∀ a, x = .ok a → Q h a) : m.Ensures start I h Q := by
  intro hi
  rw [hm]
  refine ⟨fun l hl => ?_, fun a ha => ?_⟩
  · rw [List.prefix_nil.mp hl, List.append_nil]
    exact hi
  · rw [List.append_nil]
    exact hQ hi a ha

theorem pure {a : α} (hQ : Q h a) : (Pure.pure a : Coroutine apply ε α).Ensures start I h Q :=
  of_quiet rfl fun _ b hb => by
    cases hb
    exact hQ

theorem throw (e : ε) : (Coroutine.throw e : Coroutine apply ε α).Ensures start I h Q :=
  of_quiet rfl fun _ b hb => absurd hb (Exit.throw_ne_ok e b)

theorem abandon (n : Nat) : (Coroutine.abandon n : Coroutine apply ε α).Ensures start I h Q :=
  of_quiet rfl fun _ b hb => absurd hb (Exit.cut_ne_ok n b)

theorem gets {f : σ → α} (hQ : I h → Q h (f (h.foldl apply start))) :
    (Coroutine.gets f : Coroutine apply ε α).Ensures start I h Q :=
  of_quiet rfl fun hi b hb => by
    cases hb
    exact hQ hi

theorem perform {a : ω} {Q : List ω → Unit → Prop} (ha : I h → I (h ++ [a]) ∧ Q (h ++ [a]) ()) :
    (Coroutine.perform a : Coroutine apply ε Unit).Ensures start I h Q := by
  intro hi
  refine ⟨fun l hl => ?_, fun _ _ => (ha hi).2⟩
  obtain rfl | ⟨t, rfl, ht⟩ := List.prefix_cons_iff.mp hl
  · rw [List.append_nil]
    exact hi
  · rw [List.prefix_nil.mp ht]
    exact (ha hi).1

/-- The moments of a sequence are those of its first part and then those of the second. -/
theorem moments {P : List ω → Prop} {l k : List ω} (hl : ∀ t, t <+: l → P (h ++ t))
    (hk : ∀ t, t <+: k → P (h ++ l ++ t)) {t : List ω} (ht : t <+: l ++ k) : P (h ++ t) := by
  rcases List.prefix_or_prefix_of_prefix ht (List.prefix_append l k) with hp | ⟨u, rfl⟩
  · exact hl t hp
  · rw [← List.append_assoc]
    exact hk u ((List.prefix_append_right_inj l).mp ht)

/-- **The sequence rule.** -/
theorem bind {f : α → Coroutine apply ε β} {Q : List ω → β → Prop} (hm : m.Ensures start I h R)
    (hf : ∀ k a, h <+: k → R k a → (f a).Ensures start I k Q) :
    (m >>= f).Ensures start I h Q := by
  intro hi
  cases he : (m (h.foldl apply start)).exit with
  | ok a =>
    have hlast := hm.last hi
    have hrest := hf _ a (List.prefix_append _ _) ((hm hi).2 a he) hlast
    rw [List.foldl_append] at hrest
    rw [bind_ok he]
    refine ⟨fun l hl => moments (hm hi).1 hrest.1 hl, fun b hb => ?_⟩
    rw [← List.append_assoc]
    exact hrest.2 b hb
  | throw e =>
    rw [bind_throw he]
    exact ⟨(hm hi).1, fun b hb => absurd hb (Exit.throw_ne_ok e b)⟩
  | cut n =>
    rw [bind_cut he]
    exact ⟨(hm hi).1, fun b hb => absurd hb (Exit.cut_ne_ok n b)⟩

theorem ite {p : Prop} [Decidable p] {m₁ m₂ : Coroutine apply ε α}
    (h₁ : p → m₁.Ensures start I h Q) (h₂ : ¬ p → m₂.Ensures start I h Q) :
    (if p then m₁ else m₂).Ensures start I h Q := by
  split
  next hp => exact h₁ hp
  next hp => exact h₂ hp

/-- The rule of a scope-exit guard, which must keep the invariant wherever it is performed. -/
theorem onExit {guard : ω} (hm : m.Ensures start I h Q)
    (hg : ∀ k, h <+: k → I k → I (k ++ [guard]))
    (hQ : ∀ k a, Q k a → Q (k ++ [guard]) a) : (m.onExit guard).Ensures start I h Q := by
  intro hi
  refine ⟨fun l hl => moments (hm hi).1 (fun t ht => ?_) hl, fun a ha => ?_⟩
  · obtain rfl | ⟨u, rfl, hu⟩ := List.prefix_cons_iff.mp ht
    · rw [List.append_nil]
      exact hm.last hi
    · rw [List.prefix_nil.mp hu]
      exact hg _ (List.prefix_append _ _) (hm.last hi)
  · have hr := hQ _ a ((hm hi).2 a ha)
    rwa [List.append_assoc] at hr

/-- The rule of a wait with a limit: the handler goes on from wherever `m` was destroyed. -/
theorem onAbandoned {handler : Coroutine apply ε α} (hm : m.Ensures start I h Q)
    (hh : ∀ k, h <+: k → handler.Ensures start I k Q) :
    (m.onAbandoned handler).Ensures start I h Q := by
  intro hi
  unfold Coroutine.onAbandoned
  cases he : (m (h.foldl apply start)).exit with
  | ok a =>
    refine ⟨(hm hi).1, fun b hb => ?_⟩
    cases hb
    exact (hm hi).2 a he
  | throw e => exact ⟨(hm hi).1, fun b hb => absurd hb (Exit.throw_ne_ok e b)⟩
  | cut n =>
    cases n with
    | zero =>
      have hrest := hh _ (List.prefix_append _ _) (hm.last hi)
      rw [List.foldl_append] at hrest
      refine ⟨fun l hl => moments (hm hi).1 hrest.1 hl, fun b hb => ?_⟩
      rw [← List.append_assoc]
      exact hrest.2 b hb
    | succ n => exact ⟨(hm hi).1, fun b hb => absurd hb (Exit.cut_ne_ok n b)⟩

end Ensures

end EzCpp.Lib.Coroutine
