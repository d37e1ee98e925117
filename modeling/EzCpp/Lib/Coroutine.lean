import Mathlib.Data.List.Basic

/-!
# Coroutines that can be abandoned

A computation over states `σ` that acts only through actions `ω`: it reads the state it starts
from, logs the actions it performs, and leaves the state its log replays to (`Coroutine.after`).
Nothing else can change the state, so a fact about single actions is a fact about every run.

A run ends in one of three ways (`Exit`). Besides returning and throwing, a coroutine that is
suspended can be destroyed from outside: `cut n` is the destruction caused by the `n`-th enclosing
wait that gives up, counted from the innermost one. Destruction runs the scope-exit guards of the
frames it goes through (`onExit`) and nothing else; the wait that gave up continues with its own
handler (`onAbandoned`).

A `Contract` is a specification with one relation for each way of ending. `Meets` is closed under
the operations of the monad, so a contract is proved of an interpreter by proving it of its actions.
-/

namespace EzCpp.Lib

/-- How a run ends. -/
inductive Exit (ε α : Type)
  | ok (a : α)
  | throw (e : ε)
  | cut (outer : Nat)

theorem Exit.throw_ne_ok {ε α : Type} (e : ε) (a : α) : (throw e : Exit ε α) ≠ ok a := by
  intro h
  cases h

theorem Exit.cut_ne_ok {ε α : Type} (n : Nat) (a : α) : (cut n : Exit ε α) ≠ ok a := by
  intro h
  cases h

/-- The outcome of a run: how it ends, and the actions it performed, in order. -/
structure Run (ω ε α : Type) where
  exit : Exit ε α
  log : List ω

/-- A computation whose actions are applied to the state by `apply`. -/
def Coroutine {σ ω : Type} (_apply : σ → ω → σ) (ε α : Type) : Type := σ → Run ω ε α

namespace Coroutine

variable {σ ω ε α β : Type} {apply : σ → ω → σ}

/-- The state a run leaves: its log, replayed. -/
def after (m : Coroutine apply ε α) (s : σ) : σ := (m s).log.foldl apply s

/-- Throw an exception. -/
def throw (e : ε) : Coroutine apply ε α := fun _ => ⟨.throw e, []⟩

/-- Be destroyed while suspended, by the `outer`-th enclosing wait. -/
def abandon (outer : Nat) : Coroutine apply ε α := fun _ => ⟨.cut outer, []⟩

/-- Read the state. -/
def gets (f : σ → α) : Coroutine apply ε α := fun s => ⟨.ok (f s), []⟩

/-- Perform one action. -/
def perform (a : ω) : Coroutine apply ε Unit := fun _ => ⟨.ok (), [a]⟩

/-- Continue a run with the value it returned. -/
def sequel (f : α → Coroutine apply ε β) (s : σ) (r : Run ω ε α) : Run ω ε β :=
  match r.exit with
  | .ok a =>
    let next := f a (r.log.foldl apply s)
    ⟨next.exit, r.log ++ next.log⟩
  | .throw e => ⟨.throw e, r.log⟩
  | .cut n => ⟨.cut n, r.log⟩

instance : Monad (Coroutine apply ε) where
  pure a := fun _ => ⟨.ok a, []⟩
  bind m f := fun s => sequel f s (m s)

/-- A scope-exit guard: `guard` is performed however `m` ends. -/
def onExit (m : Coroutine apply ε α) (guard : ω) : Coroutine apply ε α := fun s =>
  ⟨(m s).exit, (m s).log ++ [guard]⟩

/-- A wait with a limit: `handler` goes on where `m` was destroyed by this wait. -/
def onAbandoned (m handler : Coroutine apply ε α) : Coroutine apply ε α := fun s =>
  match (m s).exit with
  | .cut 0 =>
    let next := handler (m.after s)
    ⟨next.exit, (m s).log ++ next.log⟩
  | .cut (n + 1) => ⟨.cut n, (m s).log⟩
  | .ok a => ⟨.ok a, (m s).log⟩
  | .throw e => ⟨.throw e, (m s).log⟩

/-! ## Running the operations -/

theorem run_pure (a : α) (s : σ) : (pure a : Coroutine apply ε α) s = ⟨.ok a, []⟩ := rfl

theorem run_bind (m : Coroutine apply ε α) (f : α → Coroutine apply ε β) (s : σ) :
    (m >>= f) s = sequel f s (m s) := rfl

@[simp] theorem after_pure (a : α) (s : σ) : (pure a : Coroutine apply ε α).after s = s := rfl

section Bind

variable {m : Coroutine apply ε α} {f : α → Coroutine apply ε β} {s : σ}

theorem bind_ok {a : α} (h : (m s).exit = .ok a) :
    (m >>= f) s = ⟨(f a (m.after s)).exit, (m s).log ++ (f a (m.after s)).log⟩ := by
  rw [run_bind, sequel, h]
  rfl

theorem bind_throw {e : ε} (h : (m s).exit = .throw e) :
    (m >>= f) s = ⟨.throw e, (m s).log⟩ := by
  rw [run_bind, sequel, h]

theorem bind_cut {n : Nat} (h : (m s).exit = .cut n) :
    (m >>= f) s = ⟨.cut n, (m s).log⟩ := by
  rw [run_bind, sequel, h]

theorem after_bind_ok {a : α} (h : (m s).exit = .ok a) :
    (m >>= f).after s = (f a).after (m.after s) := by
  rw [after, bind_ok h, List.foldl_append]
  rfl

theorem after_bind_of_not_ok (h : ∀ a, (m s).exit ≠ .ok a) : (m >>= f).after s = m.after s := by
  cases hm : (m s).exit with
  | ok a => exact absurd hm (h a)
  | throw e => rw [after, bind_throw hm, after]
  | cut n => rw [after, bind_cut hm, after]

/-- A part that only reads leaves the state to the next one. -/
theorem bind_quiet {a : α} (h : m s = ⟨.ok a, []⟩) : (m >>= f) s = f a s := by
  rw [run_bind, sequel, h]
  rfl

/-- A sequence that returns went through its first part. -/
theorem of_bind_ok {b : β} (h : ((m >>= f) s).exit = .ok b) :
    ∃ a, (m s).exit = .ok a ∧ (f a (m.after s)).exit = .ok b := by
  cases hm : (m s).exit with
  | ok a => rw [bind_ok hm] at h; exact ⟨a, rfl, h⟩
  | throw e => rw [bind_throw hm] at h; cases h
  | cut n => rw [bind_cut hm] at h; cases h

/-- What a first part has done has been done. -/
theorem mem_log_bind {a : ω} (h : a ∈ (m s).log) : a ∈ ((m >>= f) s).log := by
  cases hm : (m s).exit with
  | ok b =>
    rw [bind_ok hm]
    exact List.mem_append_left _ h
  | throw e => rwa [bind_throw hm]
  | cut n => rwa [bind_cut hm]

end Bind

theorem bind_assoc {γ : Type} (m : Coroutine apply ε α) (f : α → Coroutine apply ε β)
    (g : β → Coroutine apply ε γ) : (m >>= f) >>= g = m >>= fun a => f a >>= g := by
  funext s
  cases hm : (m s).exit with
  | ok a =>
    rw [bind_ok hm]
    cases hf : (f a (m.after s)).exit with
    | ok b =>
      have he : ((m >>= f) s).exit = .ok b := by rw [bind_ok hm, hf]
      rw [bind_ok he, after_bind_ok hm, bind_ok hm, bind_ok hf, List.append_assoc]
    | throw e =>
      have he : ((m >>= f) s).exit = .throw e := by rw [bind_ok hm, hf]
      rw [bind_throw he, bind_ok hm, bind_throw hf]
    | cut n =>
      have he : ((m >>= f) s).exit = .cut n := by rw [bind_ok hm, hf]
      rw [bind_cut he, bind_ok hm, bind_cut hf]
  | throw e =>
    have he : ((m >>= f) s).exit = .throw e := by rw [bind_throw hm]
    rw [bind_throw he, bind_throw hm, bind_throw hm]
  | cut n =>
    have he : ((m >>= f) s).exit = .cut n := by rw [bind_cut hm]
    rw [bind_cut he, bind_cut hm, bind_cut hm]

theorem pure_bind (a : α) (f : α → Coroutine apply ε β) : (pure a >>= f) = f a := by
  funext s
  rw [bind_ok rfl]
  rfl

theorem bind_pure (m : Coroutine apply ε α) : (m >>= fun a => pure a) = m := by
  funext s
  cases hm : (m s).exit with
  | ok a =>
    rw [bind_ok hm]
    simp only [run_pure, List.append_nil]
    rw [← hm]
  | throw e => rw [bind_throw hm, ← hm]
  | cut n => rw [bind_cut hm, ← hm]

theorem gets_bind (f : σ → α) (g : α → Coroutine apply ε β) (s : σ) :
    (gets f >>= g) s = g (f s) s := rfl

end Coroutine

/-! ## Contracts -/

/-- Facts about the parts of a log, where one event would have excused them. -/
theorem logged_append {ω : Type} {x : ω} {l k : List ω} {P Q R : Prop} (hl : x ∈ l ∨ P)
    (hk : x ∈ k ∨ Q) (h : P → Q → R) : x ∈ l ++ k ∨ R := by
  rcases hl with hl | hp
  · exact .inl (List.mem_append_left _ hl)
  · exact hk.imp (List.mem_append_right _) (h hp)

/-- A specification of runs, one relation between the first state, the log and the last state for
each way of ending. Returning composes with every way of ending. -/
structure Contract (σ ω : Type) where
  returns : σ → List ω → σ → Prop
  throws : σ → List ω → σ → Prop
  cuts : σ → List ω → σ → Prop
  returns_refl : ∀ s, returns s [] s
  throws_refl : ∀ s, throws s [] s
  cuts_refl : ∀ s, cuts s [] s
  returns_trans : ∀ {s t u l k}, returns s l t → returns t k u → returns s (l ++ k) u
  throws_trans : ∀ {s t u l k}, returns s l t → throws t k u → throws s (l ++ k) u
  cuts_trans : ∀ {s t u l k}, returns s l t → cuts t k u → cuts s (l ++ k) u

namespace Coroutine

variable {σ ω ε α β : Type} {apply : σ → ω → σ}

/-- Every run of `m` is as the contract says. -/
def Meets (c : Contract σ ω) (m : Coroutine apply ε α) : Prop := ∀ s,
  match (m s).exit with
  | .ok _ => c.returns s (m s).log (m.after s)
  | .throw _ => c.throws s (m s).log (m.after s)
  | .cut _ => c.cuts s (m s).log (m.after s)

namespace Meets

variable {c : Contract σ ω} {m : Coroutine apply ε α}

theorem returns (h : m.Meets c) {s : σ} {a : α} (he : (m s).exit = .ok a) :
    c.returns s (m s).log (m.after s) := by
  have := h s
  rw [he] at this
  exact this

theorem throws (h : m.Meets c) {s : σ} {e : ε} (he : (m s).exit = .throw e) :
    c.throws s (m s).log (m.after s) := by
  have := h s
  rw [he] at this
  exact this

theorem cuts (h : m.Meets c) {s : σ} {n : Nat} (he : (m s).exit = .cut n) :
    c.cuts s (m s).log (m.after s) := by
  have := h s
  rw [he] at this
  exact this

theorem pure (a : α) : (Pure.pure a : Coroutine apply ε α).Meets c := fun s => c.returns_refl s

theorem throw (e : ε) : (Coroutine.throw e : Coroutine apply ε α).Meets c :=
  fun s => c.throws_refl s

theorem abandon (n : Nat) : (Coroutine.abandon n : Coroutine apply ε α).Meets c :=
  fun s => c.cuts_refl s

theorem gets (f : σ → α) : (Coroutine.gets f : Coroutine apply ε α).Meets c :=
  fun s => c.returns_refl s

theorem perform {a : ω} (h : ∀ s, c.returns s [a] (apply s a)) :
    (Coroutine.perform a : Coroutine apply ε Unit).Meets c := h

/-- **The sequence rule.** -/
theorem bind {f : α → Coroutine apply ε β} (hm : m.Meets c) (hf : ∀ a, (f a).Meets c) :
    (m >>= f).Meets c := by
  intro s
  cases he : (m s).exit with
  | ok a =>
    have first := hm.returns he
    rw [after_bind_ok he, bind_ok he]
    have second := hf a (m.after s)
    cases hn : (f a (m.after s)).exit with
    | ok b => rw [hn] at second; exact c.returns_trans first second
    | throw e => rw [hn] at second; exact c.throws_trans first second
    | cut n => rw [hn] at second; exact c.cuts_trans first second
  | throw e =>
    have first := hm.throws he
    simp only [after, bind_throw he] at first ⊢
    exact first
  | cut n =>
    have first := hm.cuts he
    simp only [after, bind_cut he] at first ⊢
    exact first

theorem ite {p : Prop} [Decidable p] {m₁ m₂ : Coroutine apply ε α} (h₁ : m₁.Meets c)
    (h₂ : m₂.Meets c) : (if p then m₁ else m₂).Meets c := by
  split
  · exact h₁
  · exact h₂

/-- The rule of a wait with a limit: what `m` did until it was destroyed, continued by the
handler, must be what the contract allows. -/
theorem onAbandoned {handler : Coroutine apply ε α} (hm : m.Meets c)
    (hh : ∀ s, (m s).exit = .cut 0 → match (handler (m.after s)).exit with
      | .ok _ => c.returns s ((m s).log ++ (handler (m.after s)).log)
          (handler.after (m.after s))
      | .throw _ => c.throws s ((m s).log ++ (handler (m.after s)).log)
          (handler.after (m.after s))
      | .cut _ => c.cuts s ((m s).log ++ (handler (m.after s)).log)
          (handler.after (m.after s))) :
    (m.onAbandoned handler).Meets c := by
  intro s
  unfold Coroutine.onAbandoned
  simp only [after]
  cases he : (m s).exit with
  | ok a => exact hm.returns he
  | throw e => exact hm.throws he
  | cut n =>
    cases n with
    | zero =>
      have := hh s he
      simp only [List.foldl_append]
      exact this
    | succ n => exact hm.cuts he

end Meets

end Coroutine

end EzCpp.Lib
