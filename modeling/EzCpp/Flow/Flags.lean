import EzCpp.Flow.Return

/-!
# The policy of a function

An expression, or a statement that has no statements in it, executes nothing, and sets the policy
where a `try` in it meets an error; nothing but the end of a scope resets it. As in the contract
`silent`, awaits that are over early are left out.
-/

namespace EzCpp.Flow

open EzCpp.Lib Ast

/-- A `try` of the function `f` has met this error. -/
abbrev tryFailed (f : Nat) (what : String) : Action :=
  .returnValue f (.error what) .tryExpression

/-- None of the functions there are in `s` executes a statement. -/
def Idle (s : State) (l : List Action) : Prop := ∀ f statement, .execute f statement ∈ l → s.pushed ≤ f

/-- The policy is not reset, and an error that is met sets it. -/
structure Flagged (s : State) (l : List Action) (t : State) : Prop where
  frame : s.Frame t
  kept : s.current.policy ≠ .stay → t.current.policy ≠ .stay
  failed : s.current.returnValue < s.pushed → ∀ what, tryFailed s.current.returnValue what ∈ l →
    t.current.policy ≠ .stay

theorem Idle.append {s t : State} {l k : List Action} (hl : Idle s l) (hp : s.pushed ≤ t.pushed)
    (hk : Idle t k) : Idle s (l ++ k) := by
  intro f statement hm
  rcases List.mem_append.1 hm with hm | hm
  · exact hl f statement hm
  · exact hp.trans (hk f statement hm)

theorem Flagged.trans {s t u : State} {l k : List Action} (h : Flagged s l t) (h' : Flagged t k u) :
    Flagged s (l ++ k) u where
  frame := h.frame.trans h'.frame
  kept hs := h'.kept (h.kept hs)
  failed hp what hm := by
    rcases List.mem_append.1 hm with hm | hm
    · exact h'.kept (h.failed hp what hm)
    · rw [← h.frame.returnValue] at hp hm
      exact h'.failed (hp.trans_le h.frame.pushed) what hm

/-- The contract of what executes no statement. -/
def flagged : Contract State Action where
  returns s l t := .timeout ∈ l ∨ Idle s l ∧ Flagged s l t
  throws s l _ := .timeout ∈ l ∨ Idle s l
  cuts s l _ := .timeout ∈ l ∨ Idle s l
  returns_refl s := .inr ⟨nofun, .refl s, id, nofun⟩
  throws_refl _ := .inr nofun
  cuts_refl _ := .inr nofun
  returns_trans h h' := logged_append h h' fun ⟨hl, hf⟩ ⟨hk, hf'⟩ =>
    ⟨hl.append hf.frame.pushed hk, hf.trans hf'⟩
  throws_trans h h' := logged_append h h' fun ⟨hl, hf⟩ hk => hl.append hf.frame.pushed hk
  cuts_trans h h' := logged_append h h' fun ⟨hl, hf⟩ hk => hl.append hf.frame.pushed hk

/-- One action that sets no policy but to a return. -/
theorem flagged_action {s : State} {a : Action} (hx : ∀ f statement, a ≠ .execute f statement)
    (hf : s.Frame (s.apply a)) (hs : s.current.policy ≠ .stay → (s.apply a).current.policy ≠ .stay)
    (ht : ∀ f what, a = tryFailed f what → (s.apply a).current.policy ≠ .stay) :
    flagged.returns s [a] (s.apply a) :=
  .inr ⟨fun f statement hm => absurd (List.mem_singleton.1 hm).symm (hx f statement), hf, hs,
    fun _ what hm => ht _ what (List.mem_singleton.1 hm).symm⟩

theorem setReturnValue_flagged (value : Entity) (origin : Origin) :
    (setReturnValue value origin).Meets flagged := fun s =>
  have set : (s.returnValue value).current.policy ≠ .stay := nofun
  flagged_action nofun (frame_returnValue s value) (fun _ => set) fun _ _ _ => set

theorem flagged_admits : AdmitsSimple flagged where
  action s a ha := by
    cases a with
    | push | pop | returnValue | execute | timeout => exact ha.elim
    | breakLoop =>
      have set : s.breakLoop.current.policy ≠ .stay := nofun
      exact flagged_action nofun ⟨rfl, rfl, rfl, Nat.le_refl _, fun _ _ _ => rfl⟩ (fun _ => set)
        fun _ _ _ => set
    | _ => exact flagged_action nofun ⟨rfl, rfl, rfl, Nat.le_refl _, fun _ _ _ => rfl⟩ id nofun
  tryError s what := setReturnValue_flagged (.error what) .tryExpression s

/-- A caller does nothing while an invocation is evaluated. -/
theorem Invoked.flagged {m : Eval Entity} (h : Invoked m) : m.Meets flagged := by
  intro s
  by_cases ht : .timeout ∈ (m s).log
  · cases (m s).exit <;> exact .inl ht
  · obtain ⟨fresh, unchanged⟩ := h s ht
    have idle : Idle s (m s).log := fun f statement hm => fresh _ hm f rfl
    cases he : (m s).exit with
    | ok v =>
      have same := unchanged v he
      obtain ⟨current, -⟩ := List.cons.inj same.scopes
      refine .inr ⟨idle, same.frame, fun hs => by rwa [current], fun hp what hm => ?_⟩
      exact absurd (fresh _ hm _ rfl) (Nat.not_le.2 hp)
    | throw e => exact .inr idle
    | cut n => exact .inr idle

end EzCpp.Flow
