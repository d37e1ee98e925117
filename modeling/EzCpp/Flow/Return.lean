import EzCpp.Flow.Contracts

/-!
# Where a return leads

The return value of a function is in a cell of its own, which is named by the id of the function's
scope and shared with the scopes above it. `pop` hands the policy `Return` down to the function's
scope and not beyond.

Expressions and the statements that do not return are silent: the functions entered before do
nothing meanwhile, but for the errors the current one may get from `try`, and the scopes below stay
as they are (`silent`). So does an invocation, for all functions there were (`invoked`). A control
statement is silent as well, or it has returned: then it has done nothing since (`Progress`).

Awaits that are over early are left out: what they leave on the stack belongs to other functions.
-/

namespace EzCpp.Flow

open EzCpp.Lib Ast

/-- The function an action is done by, where it matters. -/
def Action.owner : Action → Option Nat
  | .execute f _ | .returnValue f _ _ => some f
  | _ => none

/-- A return or a raise of the function. -/
def Action.Returns (f : Nat) : Action → Prop
  | .returnValue g _ origin => g = f ∧ origin ≠ .tryExpression
  | _ => False

theorem Action.Returns.owner {f : Nat} {a : Action} (h : a.Returns f) : a.owner = some f := by
  cases a with
  | returnValue g value origin => exact congrArg some h.1
  | _ => exact h.elim

/-! ## Cells of return values -/

/-- The cells of the functions on the stack are among those in use. -/
def State.WellFormed (s : State) : Prop := ∀ scope ∈ s.scopes, scope.returnValue < s.pushed

theorem initial_wellFormed (heap : Heap) (instanceId : Entity) (schedule : List Wake) :
    (State.initial heap instanceId schedule).WellFormed := by
  intro scope hs
  rw [List.mem_singleton.1 hs]
  exact Nat.zero_lt_one

section WellFormed

variable {s : State}

theorem State.WellFormed.current (h : s.WellFormed) : s.current.returnValue < s.pushed :=
  h _ List.mem_cons_self

theorem State.WellFormed.push (h : s.WellFormed) (type : ScopeType) : (s.push type).WellFormed := by
  intro scope hs
  rcases List.mem_cons.1 hs with rfl | hs
  · simp only [State.push]
    split
    · exact Nat.lt_succ_self _
    · exact Nat.lt_succ_of_lt h.current
  · exact Nat.lt_succ_of_lt (h scope hs)

theorem State.WellFormed.pop (h : s.WellFormed) : s.pop.WellFormed := by
  cases ho : s.outer with
  | nil => rwa [State.pop, ho]
  | cons below outer =>
    intro scope hs
    simp only [State.pop, State.scopes, ho, List.mem_cons] at hs ⊢
    have hb : ∀ scope ∈ below :: outer, scope.returnValue < s.pushed := fun scope hm =>
      h scope (List.mem_cons_of_mem _ (ho ▸ hm))
    rcases hs with rfl | hs
    · exact hb below List.mem_cons_self
    · exact hb scope (List.mem_cons_of_mem _ hs)

/-- An update of the current scope that keeps its cell. -/
theorem State.WellFormed.update {t : State} (h : s.WellFormed) (hp : t.pushed = s.pushed)
    (hc : t.current.returnValue = s.current.returnValue) (ho : t.outer = s.outer) :
    t.WellFormed := by
  intro scope hs
  rw [hp]
  rcases List.mem_cons.1 hs with rfl | hs
  · rw [hc]
    exact h.current
  · exact h scope (List.mem_cons_of_mem _ (ho ▸ hs))

theorem State.WellFormed.apply (h : s.WellFormed) (a : Action) : (s.apply a).WellFormed := by
  cases a with
  | push type => exact h.push type
  | pop => exact h.pop
  | _ => exact h.update rfl rfl rfl

/-- **The cells stay well formed in every run.** -/
theorem State.WellFormed.foldl (h : s.WellFormed) (l : List Action) :
    (l.foldl State.apply s).WellFormed := by
  induction l generalizing s with
  | nil => exact h
  | cons a l ih => exact ih (h.apply a)

end WellFormed

/-! ## Silence -/

/-- Of the functions there are in `s`, only the current one does anything, and does not return. -/
def Silent (s : State) (l : List Action) : Prop := ∀ a ∈ l, ∀ g, a.owner = some g → g < s.pushed →
  g = s.current.returnValue ∧ ¬ a.Returns g

/-- None of the functions there are in `s` does anything. -/
def Fresh (s : State) (l : List Action) : Prop := ∀ a ∈ l, ∀ g, a.owner = some g → s.pushed ≤ g

/-- The scopes below and the cells of the other functions stay as they are. -/
structure State.Frame (s t : State) : Prop where
  type : t.current.type = s.current.type
  returnValue : t.current.returnValue = s.current.returnValue
  outer : t.outer = s.outer
  pushed : s.pushed ≤ t.pushed
  returns : ∀ g < s.pushed, g ≠ s.current.returnValue → t.returns g = s.returns g

theorem State.Frame.refl (s : State) : s.Frame s := ⟨rfl, rfl, rfl, Nat.le_refl _, fun _ _ _ => rfl⟩

theorem State.Frame.trans {s t u : State} (h : s.Frame t) (h' : t.Frame u) : s.Frame u where
  type := h'.type.trans h.type
  returnValue := h'.returnValue.trans h.returnValue
  outer := h'.outer.trans h.outer
  pushed := h.pushed.trans h'.pushed
  returns g hg hne := (h'.returns g (hg.trans_le h.pushed) (by rwa [h.returnValue])).trans
    (h.returns g hg hne)

theorem Silent.append {s t : State} {l k : List Action} (hl : Silent s l) (hf : s.Frame t)
    (hk : Silent t k) : Silent s (l ++ k) := by
  intro a ha g ho hg
  rcases List.mem_append.1 ha with ha | ha
  · exact hl a ha g ho hg
  · have := hk a ha g ho (hg.trans_le hf.pushed)
    rwa [hf.returnValue] at this

theorem Fresh.silent {s : State} {l : List Action} (h : Fresh s l) : Silent s l :=
  fun a ha g ho hg => absurd (h a ha g ho) (Nat.not_le.2 hg)

/-- The contract of what does not return. -/
def silent : Contract State Action where
  returns s l t := .timeout ∈ l ∨ Silent s l ∧ s.Frame t
  throws s l _ := .timeout ∈ l ∨ Silent s l
  cuts s l _ := .timeout ∈ l ∨ Silent s l
  returns_refl s := .inr ⟨nofun, .refl s⟩
  throws_refl _ := .inr nofun
  cuts_refl _ := .inr nofun
  returns_trans h h' := logged_append h h' fun ⟨hl, hf⟩ ⟨hk, hf'⟩ =>
    ⟨hl.append hf hk, hf.trans hf'⟩
  throws_trans h h' := logged_append h h' fun ⟨hl, hf⟩ hk => hl.append hf hk
  cuts_trans h h' := logged_append h h' fun ⟨hl, hf⟩ hk => hl.append hf hk

theorem silent_returns {s t : State} {a : Action} (ha : ∀ g, a.owner = some g → g < s.pushed →
    g = s.current.returnValue ∧ ¬ a.Returns g) (hf : s.Frame t) : silent.returns s [a] t :=
  .inr ⟨fun b hb => by rw [List.mem_singleton.1 hb]; exact ha, hf⟩

/-- The cell of the current function may change. -/
theorem frame_returnValue (s : State) (value : Entity) : s.Frame (s.returnValue value) :=
  ⟨rfl, rfl, rfl, Nat.le_refl _, fun _ _ hne => Function.update_of_ne hne _ _⟩

theorem silent_admits : AdmitsSimple silent where
  action s a ha := by
    have frame : s.Frame (s.apply a) := by
      cases a with
      | push | pop | returnValue | execute | timeout => exact ha.elim
      | _ => exact ⟨rfl, rfl, rfl, Nat.le_refl _, fun _ _ _ => rfl⟩
    refine silent_returns (fun g ho => ?_) frame
    cases a with
    | push | pop | returnValue | execute | timeout => exact ha.elim
    | _ => cases ho
  tryError s what :=
    silent_returns (fun g ho _ => ⟨by cases ho; rfl, fun h => h.2 rfl⟩) (frame_returnValue s _)

theorem recordStatement_silent (statement : WorkflowStatement) :
    (recordStatement statement).Meets silent :=
  fun s => silent_returns (fun g ho _ => ⟨by cases ho; rfl, nofun⟩) (.refl s)

/-! ## Progress -/

/-- The function has returned, and has done nothing since. -/
def Returned {α : Type} (f : Nat) (s : State) (r : Run Action Exception α) : Prop :=
  ∃ pre value origin post, r.log = pre ++ .returnValue f value origin :: post ∧
    origin ≠ .tryExpression ∧ (∀ a ∈ pre, ¬ a.Returns f) ∧ (∀ a ∈ post, a.owner ≠ some f) ∧ (∃ a, r.exit = .ok a) ∧
    (r.log.foldl State.apply s).current.policy = .return ∧
    (r.log.foldl State.apply s).returns f = some value

/-- What a part of the function `f` makes of a state, when no await is over early. -/
structure Progress {α : Type} (f : Nat) (s : State) (r : Run Action Exception α) : Prop where
  owned : ∀ a ∈ r.log, ∀ g, a.owner = some g → g < s.pushed → g = f
  frame : ∀ a, r.exit = .ok a → s.Frame (r.log.foldl State.apply s)
  outcome : (∀ a ∈ r.log, ¬ a.Returns f) ∨ Returned f s r

/-- The evaluation is one of the function `f`. -/
def Does {α : Type} (f : Nat) (m : Eval α) : Prop := ∀ s, s.current.returnValue = f →
  f < s.pushed → .timeout ∉ (m s).log → Progress f s (m s)

section Rules

variable {α β : Type} {f : Nat} {s : State}

/-- A part that has returned a value, and from which the function has not returned, is followed by
the next one. -/
theorem Progress.andThen {r : Run Action Exception α} {r' : Run Action Exception β} {a : α}
    (h : Progress f s r) (hs : ∀ a ∈ r.log, ¬ a.Returns f) (he : r.exit = .ok a)
    (h' : Progress f (r.log.foldl State.apply s) r') :
    Progress f s ⟨r'.exit, r.log ++ r'.log⟩ := by
  have frame := h.frame a he
  refine ⟨fun b hb g ho hg => ?_, fun b hb => ?_, ?_⟩
  · rcases List.mem_append.1 hb with hb | hb
    · exact h.owned b hb g ho hg
    · exact h'.owned b hb g ho (hg.trans_le frame.pushed)
  · rw [List.foldl_append]
    exact frame.trans (h'.frame b hb)
  · rcases h'.outcome with hs' | ⟨pre, value, origin, post, hl, ho, hpre, hpost, hend⟩
    · refine .inl fun b hb => ?_
      rcases List.mem_append.1 hb with hb | hb
      · exact hs b hb
      · exact hs' b hb
    · refine .inr ⟨r.log ++ pre, value, origin, post, ?_, ho, fun b hb => ?_, hpost, ?_⟩
      · rw [hl, List.append_assoc]
      · rcases List.mem_append.1 hb with hb | hb
        · exact hs b hb
        · exact hpre b hb
      · rw [List.foldl_append]
        exact hend

theorem Does.of_silent {m : Eval α} (hm : m.Meets silent) : Does f m := by
  intro s hf hp ht
  have hsilent : Silent s (m s).log := by
    cases he : (m s).exit with
    | ok a => exact ((hm.returns he).resolve_left ht).1
    | throw e => exact (hm.throws he).resolve_left ht
    | cut n => exact (hm.cuts he).resolve_left ht
  refine ⟨fun a ha g ho hg => (hsilent a ha g ho hg).1.trans hf, fun a he => ?_, .inl ?_⟩
  · exact ((hm.returns he).resolve_left ht).2
  · exact fun a ha hr => (hsilent a ha f hr.owner hp).2 hr

/-- A part that is broken off breaks off what it is a part of. -/
theorem Progress.broken {r : Run Action Exception α} {r' : Run Action Exception β}
    (h : Progress f s r) (hl : r'.log = r.log) (he : ∀ a, r.exit ≠ .ok a)
    (he' : ∀ b, r'.exit ≠ .ok b) : Progress f s r' where
  owned := hl ▸ h.owned
  frame b hb := absurd hb (he' b)
  outcome := .inl (hl ▸ h.outcome.resolve_right
    fun ⟨_, _, _, _, _, _, _, _, ⟨a, ha⟩, _⟩ => he a ha)

/-- **The sequence rule**, after a part that does not return. -/
theorem Does.bind {m : Eval α} {next : α → Eval β} (hm : m.Meets silent)
    (hn : ∀ a, Does f (next a)) : Does f (m >>= next) := by
  intro s hf hp ht
  have broken : (∀ a, (m s).exit ≠ .ok a) → ∀ r : Run Action Exception β, r.log = (m s).log →
      .timeout ∉ r.log → (∀ b, r.exit ≠ .ok b) → Progress f s r := fun he r hl ht he' =>
    (Does.of_silent hm s hf hp (hl ▸ ht)).broken hl he he'
  cases he : (m s).exit with
  | ok a =>
    rw [Coroutine.bind_ok he] at ht ⊢
    have hl : .timeout ∉ (m s).log := fun h => ht (List.mem_append_left _ h)
    have first := Does.of_silent hm s hf hp hl
    have frame := first.frame a he
    have quiet : ∀ a ∈ (m s).log, ¬ a.Returns f := fun a ha hr =>
      (((hm.returns he).resolve_left hl).1 a ha f hr.owner hp).2 hr
    exact first.andThen quiet he (hn a (m.after s) (frame.returnValue.trans hf)
      (hp.trans_le frame.pushed) fun h => ht (List.mem_append_right _ h))
  | throw e =>
    rw [Coroutine.bind_throw he] at ht ⊢
    exact broken (by simp [he]) _ rfl ht nofun
  | cut n =>
    rw [Coroutine.bind_cut he] at ht ⊢
    exact broken (by simp [he]) _ rfl ht nofun

theorem Does.pure (a : α) : Does f (pure a : Eval α) := .of_silent (.pure a)

theorem Does.ite {p : Prop} [Decidable p] {m₁ m₂ : Eval α} (h₁ : Does f m₁) (h₂ : Does f m₂) :
    Does f (if p then m₁ else m₂) := by
  split
  · exact h₁
  · exact h₂

theorem Does.ifStay {m : Eval Unit} (hm : Does f m) : Does f (ifStay m) :=
  .bind (.gets _) fun _ => .ite hm (.pure _)

/-- **The rule of statements in sequence**: a return is the last of them. -/
theorem Does.seq {m next : Eval Unit} (hm : Does f m) (hn : Does f next) :
    Does f (m >>= fun _ => Flow.ifStay next) := by
  intro s hf hp ht
  cases he : (m s).exit with
  | ok a =>
    have hl : .timeout ∉ (m s).log := fun h => ht <| by
      rw [Coroutine.bind_ok he]
      exact List.mem_append_left _ h
    have first := hm s hf hp hl
    have frame := first.frame a he
    rcases first.outcome with quiet | returned
    · rw [Coroutine.bind_ok he] at ht ⊢
      exact first.andThen quiet he (hn.ifStay (m.after s) (frame.returnValue.trans hf)
        (hp.trans_le frame.pushed) fun h => ht (List.mem_append_right _ h))
    · rw [run_bind_ifStay_of_ne he]
      · exact first
      · obtain ⟨_, _, _, _, _, _, _, _, _, policy, _⟩ := returned
        exact fun h => nomatch policy.symm.trans h
  | throw e =>
    rw [Coroutine.bind_throw he] at ht ⊢
    exact (hm s hf hp ht).broken rfl (by simp [he]) nofun
  | cut n =>
    rw [Coroutine.bind_cut he] at ht ⊢
    exact (hm s hf hp ht).broken rfl (by simp [he]) nofun

/-! ## Scopes -/

theorem State.Frame.pop {t : State} {type : ScopeType} (ht : type ≠ .function)
    (h : (s.push type).Frame t) : s.Frame t.pop := by
  have outer : t.outer = s.current :: s.outer := h.outer
  have hp : s.pushed ≤ t.pushed := (Nat.le_succ _).trans h.pushed
  have cell : (s.push type).current.returnValue = s.current.returnValue := by
    simp [State.push, ht]
  have pop : t.pop = { t with
      current := { s.current with policy := State.propagate t.current s.current.policy }
      outer := s.outer } := by
    rw [State.pop, outer]
  rw [pop]
  refine ⟨rfl, rfl, rfl, hp, fun g hg hne => ?_⟩
  have := h.returns g (Nat.lt_succ_of_lt hg) (by rwa [cell])
  simpa [State.push, ht] using this

/-- `pop` hands a `Return` on. -/
theorem policy_pop_of_return {t : State} {type : ScopeType} (ht : type ≠ .function)
    (h : (s.push type).Frame t) (hp : t.current.policy = .return) :
    t.pop.current.policy = .return := by
  have outer : t.outer = s.current :: s.outer := h.outer
  have hk : t.current.type = type := h.type
  rw [State.pop, outer]
  simp only [State.propagate, hp, hk]
  cases type with
  | function => exact absurd rfl ht
  | _ => rfl

theorem foldl_scope (type : ScopeType) (l : List Action) (s : State) :
    (.push type :: (l ++ [.pop])).foldl State.apply s = (l.foldl State.apply (s.push type)).pop := by
  rw [List.foldl_cons, List.foldl_append]
  rfl

/-- **The rule of a scope.** -/
theorem Does.scope {m : Eval Unit} {type : ScopeType} (ht : type ≠ .function) (hm : Does f m) :
    Does f (evalScope type m) := by
  intro s hf hp hl
  rw [run_evalScope] at hl ⊢
  have inside := hm (s.push type) (by simpa [State.push, ht] using hf) (Nat.lt_succ_of_lt hp)
    fun h => hl (List.mem_cons_of_mem _ (List.mem_append_left _ h))
  have cases_log : ∀ {P : Action → Prop}, P (.push type) → P .pop →
      (∀ a ∈ (m (s.push type)).log, P a) →
      ∀ a ∈ Action.push type :: ((m (s.push type)).log ++ [.pop]), P a := by
    intro P hpush hpop hin a ha
    rcases List.mem_cons.1 ha with rfl | ha
    · exact hpush
    · rcases List.mem_append.1 ha with ha | ha
      · exact hin a ha
      · rw [List.mem_singleton.1 ha]
        exact hpop
  refine ⟨cases_log nofun nofun fun a ha g ho hg => inside.owned a ha g ho (Nat.lt_succ_of_lt hg),
    fun a ha => ?_, ?_⟩
  · rw [foldl_scope]
    exact (inside.frame a ha).pop ht
  · rcases inside.outcome with quiet | ⟨pre, value, origin, post, hlog, ho, hpre, hpost, ⟨a, ha⟩, hend⟩
    · exact .inl (cases_log id id quiet)
    · refine .inr ⟨.push type :: pre, value, origin, post ++ [.pop], ?_, ho, ?_, ?_, ⟨a, ha⟩, ?_⟩
      · rw [hlog]
        simp
      · exact List.forall_mem_cons.2 ⟨id, hpre⟩
      · exact List.forall_mem_append.2 ⟨hpost, List.forall_mem_singleton.2 nofun⟩
      · rw [foldl_scope]
        refine ⟨policy_pop_of_return ht (inside.frame a ha) hend.1, ?_⟩
        have outer : ((m (s.push type)).log.foldl State.apply (s.push type)).outer =
            s.current :: s.outer := (inside.frame a ha).outer
        rw [State.pop, outer]
        exact hend.2

/-! ## Statements -/

/-- **The rule of a condition**, before something that is done when it does not hold. -/
theorem Does.branch {c : Eval Bool} {m : Eval Unit} {rest : Bool → Eval Unit}
    (hc : c.Meets silent) (hm : Does f (evalScope .local m))
    (ht : ∀ s, rest true s = ⟨.ok (), []⟩) (hr : Does f (rest false)) :
    Does f (evalCondition c m >>= rest) := by
  have done : rest true = Flow.ifStay (Pure.pure ()) := by
    funext s
    rw [ht]
    by_cases hs : s.current.policy = .stay
    · rw [run_ifStay_of_stay hs]
      rfl
    · rw [run_ifStay_of_ne hs]
  rw [evalCondition, Coroutine.bind_assoc]
  refine .bind hc fun b => ?_
  cases b with
  | true =>
    rw [if_pos rfl, Coroutine.bind_assoc]
    simp only [Coroutine.pure_bind, done]
    exact .seq hm (.pure ())
  | false =>
    rw [if_neg Bool.false_ne_true, Coroutine.pure_bind]
    exact hr

theorem Does.loop {m : Eval Unit} (hm : Does f m) (count : Nat) : Does f (evalRepeat m count) := by
  induction count with
  | zero => exact .pure ()
  | succ count ih => exact .seq (hm.scope nofun) ih

/-- A return is the last thing a function does. -/
theorem Does.setReturnValue (value : Entity) {origin : Origin} (ho : origin ≠ .tryExpression) :
    Does f (setReturnValue value origin) := by
  intro s hf _ _
  refine ⟨fun a ha g hg _ => ?_, fun _ _ => frame_returnValue s value, .inr ?_⟩
  · rw [List.mem_singleton.1 ha] at hg
    cases hg
    exact hf
  · refine ⟨[], value, origin, [], ?_, ho, nofun, nofun, ⟨(), rfl⟩, rfl, ?_⟩
    · rw [← hf]
      rfl
    · rw [← hf]
      exact Function.update_self _ _ _

theorem evalSimple_does (host : Host) {invoke : WorkflowInvocation → Eval Entity}
    (hi : ∀ invocation, (awaitWorkflow invoke invocation).Meets silent)
    (statement : WorkflowStatement) : Does f (evalSimple host invoke statement) := by
  have expression := evalExpression_meets silent_admits.admits host hi
  by_cases hr : statement.returns
  · cases statement with
    | returnStatement e => exact .bind (expression e) fun _ => .setReturnValue _ nofun
    | raise e =>
      exact .bind (expression e) fun _ => .bind (raised_meets _) fun _ => .setReturnValue _ nofun
    | _ => cases hr
  · exact .of_silent (evalSimple_meets_of_not_returns silent_admits host hi hr)

section Trees

set_option linter.unusedSectionVars false

variable (f) (host : Host) {leaves : Leaves} (hb : ∀ e, (leaves.condition e).Meets silent)
  (hl : ∀ statement, Does f (leaves.simple statement))
include hb hl

mutual

/-- **A return leaves every statement it is in.** -/
theorem evalStatement_does : ∀ statement, Does f (evalStatement host leaves statement)
  | .ifBlock ⟨⟨condition, statements⟩, elifBlocks, elseBlock⟩ => by
    rw [evalStatement]
    refine .bind (recordStatement_silent _) fun _ => .branch (hb _)
      (.scope nofun (evalStatements_does statements)) (fun s => ?_)
      (.ifStay (evalElifBlocks_does elifBlocks (.ite (.pure ()) ?_)))
    · by_cases hs : s.current.policy = .stay
      · exact run_ifStay_of_stay hs
      · exact run_ifStay_of_ne hs
    · exact .scope nofun (evalStatements_does elseBlock)
  | .repeatBlock ⟨statements⟩ => by
    rw [evalStatement]
    exact .bind (recordStatement_silent _) fun _ => .loop (evalStatements_does statements) _
  | .importStatement _ | .variableDeclaration _ _ _ | .assignment _ _ | .delay _
  | .returnStatement _ | .raise _ | .breakStatement | .expression _ | .workflowDefinition _ => by
    rw [evalStatement]
    · exact .bind (recordStatement_silent _) fun _ => hl _
    all_goals simp

theorem evalStatements_does : ∀ statements, Does f (evalStatements host leaves statements)
  | [] => by
    rw [evalStatements]
    exact .pure ()
  | statement :: statements => by
    rw [evalStatements]
    exact .seq (evalStatement_does statement) (evalStatements_does statements)

theorem evalElifBlocks_does : ∀ (blocks : List (ConditionBlock WorkflowStatement))
    {otherwise : Eval Unit}, Does f otherwise →
    Does f (evalElifBlocks host leaves blocks otherwise)
  | [], _, ho => by
    rw [evalElifBlocks]
    exact ho
  | ⟨condition, statements⟩ :: blocks, _, ho => by
    rw [evalElifBlocks]
    exact .branch (hb _) (.scope nofun (evalStatements_does statements)) (fun s => rfl)
      (.ifStay (evalElifBlocks_does blocks ho))

end

end Trees

end Rules

/-! ## Invocations -/

/-- The caller's scopes, their policies and the return values there are have not changed. -/
structure State.Unchanged (s t : State) : Prop where
  scopes : t.scopes = s.scopes
  pushed : s.pushed ≤ t.pushed
  returns : ∀ g < s.pushed, t.returns g = s.returns g

/-- Nothing is handed on from the scope of a function. -/
theorem State.Frame.pop_function {s t : State} (h : (s.push .function).Frame t) :
    s.Unchanged t.pop := by
  have outer : t.outer = s.current :: s.outer := h.outer
  have type : t.current.type = .function := h.type
  have policy : State.propagate t.current s.current.policy = s.current.policy := by
    unfold State.propagate
    split <;> simp_all
  have pop : t.pop = { t with current := s.current, outer := s.outer } := by
    rw [State.pop, outer]
    simp only [policy]
  rw [pop]
  refine ⟨rfl, (Nat.le_succ _).trans h.pushed, fun g hg => ?_⟩
  have hne : g ≠ s.pushed := Nat.ne_of_lt hg
  have := h.returns g (Nat.lt_succ_of_lt hg) hne
  simpa [State.push, hne] using this

/-- Without timeouts, no function there was before does anything, and a caller goes on as it was. -/
def Invoked (m : Eval Entity) : Prop := ∀ s, .timeout ∉ (m s).log →
  Fresh s (m s).log ∧ ∀ v, (m s).exit = .ok v → s.Unchanged (m.after s)

theorem State.Unchanged.frame {s t : State} (h : s.Unchanged t) : s.Frame t := by
  obtain ⟨current, outer⟩ := List.cons.inj h.scopes
  exact ⟨by rw [current], by rw [current], outer, h.pushed, fun g hg _ => h.returns g hg⟩

theorem Invoked.meets {m : Eval Entity} (h : Invoked m) : m.Meets silent := by
  intro s
  by_cases ht : .timeout ∈ (m s).log
  · cases (m s).exit <;> exact .inl ht
  · obtain ⟨fresh, unchanged⟩ := h s ht
    cases he : (m s).exit with
    | ok v => exact .inr ⟨fresh.silent, (unchanged v he).frame⟩
    | throw e => exact .inr fresh.silent
    | cut n => exact .inr fresh.silent

theorem awaitWorkflow_silent {invoke : WorkflowInvocation → Eval Entity}
    {invocation : WorkflowInvocation} (h : Invoked (invoke invocation)) :
    (awaitWorkflow invoke invocation).Meets silent :=
  .onAbandoned h.meets fun _ _ =>
    .inl (List.mem_append_right _ (List.mem_singleton_self _))

section Function

variable {evalBody : List WorkflowStatement → Eval Unit} {invocation : WorkflowInvocation}
  {type : FlowType} {s : State}

theorem checkReturnValue_log (i : Instanciation) (type : FlowType) (value : Option Entity)
    (s : State) : (checkReturnValue i type value s).log = [] := by
  unfold checkReturnValue
  split
  · cases i <;> rfl
  · simp only []
    split <;> rfl

theorem checkReturnValue_of_same {i : Instanciation} {type : FlowType} {v : Entity}
    (h : v.type.same type ∨ v.type.same .error) (s : State) :
    checkReturnValue i type (some v) s = ⟨.ok v, []⟩ := by
  have unlike : ¬ ((!v.type.same type && !v.type.same .error) = true) := by
    rcases h with h | h <;> simp [h]
  simp only [checkReturnValue, Option.isNone_some, Bool.false_and, Bool.false_eq_true, if_false,
    Option.getD_some, if_neg unlike]
  rfl

/-- Once its body has ended, a function checks what is in its cell and does nothing more. -/
theorem evalFunction_of_ok (he : (evalFunctionBody evalBody invocation s).exit = .ok ()) :
    evalFunction evalBody invocation type s =
      ⟨(checkReturnValue invocation.instanciation type
        (((evalFunctionBody evalBody invocation).after s).returns s.current.returnValue)
        ((evalFunctionBody evalBody invocation).after s)).exit,
      (evalFunctionBody evalBody invocation s).log⟩ := by
  rw [evalFunction, returnCell, Eval.gets, Coroutine.gets_bind, Coroutine.bind_ok he, Eval.gets,
    Coroutine.gets_bind, checkReturnValue_log, List.append_nil]

theorem evalFunction_log : (evalFunction evalBody invocation type s).log =
    (evalFunctionBody evalBody invocation s).log := by
  cases he : (evalFunctionBody evalBody invocation s).exit with
  | ok _ => rw [evalFunction_of_ok he]
  | throw e => rw [evalFunction, returnCell, Eval.gets, Coroutine.gets_bind, Coroutine.bind_throw he]
  | cut n => rw [evalFunction, returnCell, Eval.gets, Coroutine.gets_bind, Coroutine.bind_cut he]

theorem evalFunction_ok {v : Entity} (h : (evalFunction evalBody invocation type s).exit = .ok v) :
    (evalFunctionBody evalBody invocation s).exit = .ok () := by
  rw [evalFunction, returnCell, Eval.gets, Coroutine.gets_bind] at h
  obtain ⟨⟨⟩, he, -⟩ := Coroutine.of_bind_ok h
  exact he

variable (hb : ∀ f statements, Does f (evalBody statements))
include hb

theorem evalFunctionBody_does (f : Nat) : Does f (evalFunctionBody evalBody invocation) :=
  .bind (evalArguments_meets silent_admits _) fun _ => .scope nofun (hb f _)

/-- The body of an invocation, in the scope that is pushed for it. -/
theorem evalFunctionBody_progress
    (ht : .timeout ∉ (evalFunctionBody evalBody invocation (s.push .function)).log) :
    Progress s.pushed (s.push .function)
      (evalFunctionBody evalBody invocation (s.push .function)) :=
  evalFunctionBody_does hb s.pushed _ rfl (Nat.lt_succ_self _) ht

omit hb in
/-- What an invocation does around its function is done by no function. -/
theorem closeFunction_log (r : Run Action Exception Entity) :
    ∃ tail, (∀ a ∈ tail, a.owner = none) ∧
      (closeFunction r).log = .push .function :: (r.log ++ tail) := by
  refine ⟨_, ?_, rfl⟩
  split
  · exact List.forall_mem_singleton.2 rfl
  · exact nofun

omit hb in
theorem mem_closeFunction {r : Run Action Exception Entity} {a : Action}
    (h : a ∈ (closeFunction r).log) : a ∈ r.log ∨ a.owner = none := by
  obtain ⟨tail, htail, hl⟩ := closeFunction_log r
  rw [hl] at h
  rcases List.mem_cons.1 h with rfl | h
  · exact .inr rfl
  · exact (List.mem_append.1 h).imp_right (htail a)

omit hb in
theorem closeFunction_of_ok {r : Run Action Exception Entity} {v : Entity} (h : r.exit = .ok v) :
    closeFunction r = ⟨.ok v, .push .function :: (r.log ++ [.pop])⟩ := by
  rw [closeFunction, h]

/-- **An invocation is invisible to the functions there are.** -/
theorem evalInvocation_invoked : Invoked (evalInvocation evalBody invocation) := by
  intro s ht
  rcases evalInvocation_cases evalBody invocation s with ⟨e, -, h⟩ | ⟨type, -, h⟩
  · rw [h]
    exact ⟨nofun, nofun⟩
  · rw [h, closeFunction] at ht
    have progress := evalFunctionBody_progress hb fun hm => ht <| by
      rw [← evalFunction_log] at hm
      exact List.mem_cons_of_mem _ (List.mem_append_left _ hm)
    refine ⟨fun a ha g ho => ?_, fun v hv => ?_⟩
    · rw [h] at ha
      rcases mem_closeFunction ha with ha | hn
      · by_contra hg
        rw [evalFunction_log] at ha
        have own := progress.owned a ha g ho (Nat.lt_succ_of_lt (Nat.not_le.1 hg))
        exact hg (Nat.le_of_eq own.symm)
      · cases hn.symm.trans ho
    · rw [h] at hv
      have done := evalFunction_ok hv
      have frame := progress.frame () done
      have exit : (evalFunction evalBody invocation type (s.push .function)).exit = .ok v := hv
      rw [Coroutine.after, h, closeFunction_of_ok exit, foldl_scope, evalFunction_log]
      exact frame.pop_function

end Function

theorem evalBody_does (host : Host) {invoke : WorkflowInvocation → Eval Entity}
    (hi : ∀ invocation, (awaitWorkflow invoke invocation).Meets silent) (f : Nat)
    (statements : List WorkflowStatement) :
    Does f (evalStatements host (evalLeaves host invoke) statements) :=
  evalStatements_does f host (evalBoolean_meets silent_admits.admits host hi)
    (evalSimple_does host hi) statements

theorem evalInvocations_silent (host : Host) (depth : Nat) (invocation : WorkflowInvocation) :
    (awaitWorkflow (evalInvocations host depth) invocation).Meets silent := by
  induction depth generalizing invocation with
  | zero => exact awaitWorkflow_silent fun s _ => ⟨nofun, nofun⟩
  | succ depth ih => exact awaitWorkflow_silent (evalInvocation_invoked (evalBody_does host ih))

/-! ## What a return leaves -/

/-- A list is split in one way at the only element of a kind. -/
theorem append_cons_inj {α : Type} {P : α → Prop} {x y : α} {pre post pre' post' : List α}
    (h : pre ++ x :: post = pre' ++ y :: post') (hx : P x) (hpre : ∀ a ∈ pre', ¬ P a)
    (hpost : ∀ a ∈ post', ¬ P a) : pre = pre' ∧ x = y ∧ post = post' := by
  induction pre generalizing pre' with
  | nil =>
    cases pre' with
    | nil => exact ⟨rfl, List.cons.inj h⟩
    | cons z pre' => exact absurd ((List.cons.inj h).1 ▸ hx) (hpre z List.mem_cons_self)
  | cons z pre ih =>
    cases pre' with
    | nil =>
      obtain ⟨-, hrest⟩ := List.cons.inj h
      have hm : x ∈ post' := hrest ▸ List.mem_append_right _ List.mem_cons_self
      exact absurd hx (hpost x hm)
    | cons w pre' =>
      obtain ⟨rfl, hrest⟩ := List.cons.inj h
      obtain ⟨rfl, hxy⟩ := ih hrest fun a ha => hpre a (List.mem_cons_of_mem _ ha)
      exact ⟨rfl, hxy⟩

/-- The evaluation of an invocation. -/
abbrev runInvocation (host : Host) (depth : Nat) (invocation : WorkflowInvocation) : Eval Entity :=
  evalInvocations host depth invocation

/-- **A return leaves the innermost workflow, and this one alone.** `s.pushed` is the invocation
itself: once it returns it executes no statement and sets no return value any more, its result is
what it has returned, and the caller goes on with the policies and the return values it had. -/
theorem return_leaves_innermost_workflow (host : Host) (depth : Nat)
    (invocation : WorkflowInvocation) (s : State) (hs : s.WellFormed)
    (ht : .timeout ∉ (runInvocation host depth invocation s).log) {pre post : List Action}
    {value : Entity} {origin : Origin} (ho : origin ≠ .tryExpression)
    (hlog : (runInvocation host depth invocation s).log =
      pre ++ .returnValue s.pushed value origin :: post) :
    (∀ a ∈ post, a.owner ≠ some s.pushed) ∧
    (∀ a ∈ pre, ¬ a.Returns s.pushed) ∧
    (∀ type, (returnType invocation.definition s).exit = .ok type →
      value.type.same type ∨ value.type.same .error →
      (runInvocation host depth invocation s).exit = .ok value) ∧
    (∀ v, (runInvocation host depth invocation s).exit = .ok v →
      ((runInvocation host depth invocation).after s).scopes = s.scopes ∧
      ∀ scope ∈ s.scopes, ((runInvocation host depth invocation).after s).returns scope.returnValue =
        s.returns scope.returnValue) := by
  cases depth with
  | zero => simp [runInvocation, evalInvocations, Eval.throw, Coroutine.throw] at hlog
  | succ depth =>
    have hb := evalBody_does host (evalInvocations_silent host depth)
    obtain ⟨-, caller⟩ := evalInvocation_invoked hb s ht
    rcases evalInvocation_cases _ invocation s with ⟨e, -, h⟩ | ⟨type, htype, h⟩
    · have nothing : (runInvocation host (depth + 1) invocation s).log = [] := congrArg Run.log h
      simp [nothing] at hlog
    have run : runInvocation host (depth + 1) invocation s = closeFunction _ := h
    rw [run] at ht hlog
    have progress := evalFunctionBody_progress hb fun hm => ht <|
      List.mem_cons_of_mem _ (List.mem_append_left _ (by rwa [evalFunction_log]))
    rcases progress.outcome with
      quiet | ⟨pre', value', origin', post', hl, ho', hpre, hpost, ⟨⟨⟩, he⟩, -, hret⟩
    · -- the return is in the body, which has not returned
      have hm : Action.returnValue s.pushed value origin ∈ (closeFunction _).log :=
        hlog ▸ List.mem_append_right _ List.mem_cons_self
      rcases mem_closeFunction hm with hm | hn
      · rw [evalFunction_log] at hm
        exact absurd ⟨rfl, ho⟩ (quiet _ hm)
      · cases hn
    · obtain ⟨tail, htail, hclose⟩ :=
        closeFunction_log (evalFunction (evalStatements host _) invocation type (s.push .function))
      have split : pre ++ .returnValue s.pushed value origin :: post = (.push .function :: pre') ++
          .returnValue s.pushed value' origin' :: (post' ++ tail) := by
        rw [← hlog, hclose, evalFunction_log, hl]
        simp
      have quiet : ∀ a ∈ post' ++ tail, a.owner ≠ some s.pushed :=
        List.forall_mem_append.2 ⟨hpost, fun a ha ho =>
          Option.some_ne_none _ (ho.symm.trans (htail a ha))⟩
      have before : ∀ a ∈ Action.push .function :: pre', ¬ a.Returns s.pushed :=
        List.forall_mem_cons.2 ⟨id, hpre⟩
      obtain ⟨rfl, hv, rfl⟩ := append_cons_inj (P := fun a => a.Returns s.pushed) split ⟨rfl, ho⟩
        before fun a ha hr => quiet a ha hr.owner
      cases hv
      refine ⟨quiet, before, fun type' ht' hsame => ?_, fun v hv => ?_⟩
      · rw [htype] at ht'
        cases ht'
        have cell : ((evalFunctionBody _ invocation).after (s.push .function)).returns
            (s.push .function).current.returnValue = some value := hret
        rw [run, closeFunction, evalFunction_of_ok he, cell, checkReturnValue_of_same hsame]
      · have unchanged := caller v hv
        exact ⟨unchanged.scopes, fun scope hm => unchanged.returns _ (hs scope hm)⟩

/-- A workflow that raises an error, two statements and two scopes deep. -/
def failing : WorkflowDefinition where
  name := "failing"
  signature := none
  statements :=
    [.repeatBlock ⟨[.ifBlock ⟨⟨(Literal.boolean true).toExpression,
      [.raise (Literal.string "failed").toExpression]⟩, [], []⟩]⟩,
      .importStatement ⟨"after", []⟩]

def runFailing : Run Action Exception Entity :=
  runInvocation .plain 1
    ⟨failing, .expression (IdentifierPath.toExpression ⟨"failing", []⟩), []⟩
    (.fresh [])

theorem failing_raises : runFailing.exit = .ok (.error "failed") := by
  have split : runFailing.log = runFailing.log.take 9 ++
      .returnValue 1 (.error "failed") .raise :: runFailing.log.drop 10 := rfl
  have inTime : .timeout ∉ runFailing.log := timeout_not_mem rfl
  have raised : Origin.raise ≠ .tryExpression := nofun
  exact (return_leaves_innermost_workflow .plain 1 _ (.fresh []) (initial_wellFormed _ _ _) inTime
    raised split).2.2.1 .void rfl (.inr rfl)

end EzCpp.Flow
