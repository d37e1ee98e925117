import EzCpp.Flow.Structured

/-!
# Where a break leads

The flags and the structured semantics agree on everything before a repeat is left by a `break`:
the states are the same then, but for the policy of the current scope where a `break` is under way.
Where a repeat is left, `pop` gives the policy `Break` of the repeat's scope to the scope around it,
and nothing resets it there: the flags go on leaving the scopes around, up to the function.
-/

namespace EzCpp.Flow

open EzCpp.Lib Ast

@[simp] theorem simples_append (f : Nat) (l k : List Action) :
    simples f (l ++ k) = simples f l ++ simples f k :=
  List.filterMap_append

/-- What the control statements do not change. -/
def State.shape (s : State) : List (ScopeType × Nat) :=
  s.scopes.map fun scope => (scope.type, scope.returnValue)

theorem State.shape_eq_of_control {s t : State} (h : t.control = s.control) : t.shape = s.shape := by
  have proj := congrArg (List.map fun c : ScopeType × Nat × FlowControlPolicy => (c.1, c.2.1)) h
  rw [control, control, List.map_map, List.map_map] at proj
  exact proj

theorem State.policy_eq_of_control {s t : State} (h : t.control = s.control) :
    t.current.policy = s.current.policy := by
  simp only [control, scopes, List.map_cons, List.cons.injEq, Prod.mk.injEq] at h
  exact h.1.2.2

theorem State.returnValue_eq_of_shape {s t : State} (h : t.shape = s.shape) :
    t.current.returnValue = s.current.returnValue := by
  simp only [shape, scopes, List.map_cons, List.cons.injEq, Prod.mk.injEq] at h
  exact h.1.2

section Pop

variable {s t : State} {type : ScopeType}

/-- With the shape of a push there is a scope to pop. -/
theorem State.outer_of_shape (h : t.shape = (s.push type).shape) :
    t.current.type = type ∧ ∃ below outer, t.outer = below :: outer := by
  simp only [shape, scopes, push, List.map_cons, List.cons.injEq, Prod.mk.injEq] at h
  obtain ⟨⟨ht, -⟩, ho⟩ := h
  refine ⟨ht, ?_⟩
  cases ho' : t.outer with
  | nil => simp [ho'] at ho
  | cons below outer => exact ⟨below, outer, rfl⟩

theorem State.shape_pop (h : t.shape = (s.push type).shape) : t.pop.shape = s.shape := by
  obtain ⟨-, below, outer, ho⟩ := outer_of_shape h
  simp only [shape, scopes, push, ho, List.map_cons, List.cons.injEq] at h
  simp only [shape, scopes, pop, ho, List.map_cons, List.cons.injEq]
  exact h.2

theorem State.control_pop (h : t.control = (s.push type).control) : t.pop.control = s.control := by
  have policy : t.current.policy = .stay := policy_eq_of_control h
  obtain ⟨-, below, outer, ho⟩ := outer_of_shape (shape_eq_of_control h)
  simp only [control, scopes, push, ho, List.map_cons, List.cons.injEq] at h
  simp only [control, scopes, pop, propagate, policy, ho, List.map_cons, List.cons.injEq]
  exact h.2

theorem State.policy_pop_of_break (ht : type ≠ .function) (h : t.shape = (s.push type).shape)
    (hp : t.current.policy = .break) : t.pop.current.policy = .break := by
  obtain ⟨hk, below, outer, ho⟩ := outer_of_shape h
  simp only [pop, ho, propagate, hp, hk]
  cases type with
  | function => exact absurd rfl ht
  | loop | «local» => rfl

theorem State.pop_breakLoop (ht : type ≠ .function) (h : t.shape = (s.push type).shape) :
    t.breakLoop.pop = t.pop.breakLoop := by
  obtain ⟨hk, below, outer, ho⟩ := outer_of_shape h
  simp only [pop, breakLoop, ho, propagate, hk]
  cases type with
  | function => exact absurd rfl ht
  | loop | «local» => rfl

end Pop

open Structured

theorem Structured.result_spec {α : Type} {m : Eval α} {s : State} {a : α}
    (h : result m s = some a) : (m s).exit = .ok a ∧ (m.after s).control = s.control ∧
      simples s.current.returnValue (m s).log = [] := by
  unfold result at h
  split at h
  next b he =>
    obtain ⟨⟨hc, hl⟩, hb⟩ := Option.ite_none_right_eq_some.1 h
    cases hb
    exact ⟨he, hc, List.isEmpty_iff.1 hl⟩
  next => cases h

/-! ## Agreement -/

/-- The state with which the flags go on. -/
def Structured.Signal.mark : Signal → State → State
  | .normal, s => s
  | .broke, s => s.breakLoop

/-- The state a run leads to. -/
abbrev endState (s : State) (r : Run Action Exception Unit) : State := r.log.foldl State.apply s

structure Agrees (f : Nat) (s : State) (r : Run Action Exception Unit) (o : Outcome) : Prop where
  exit : r.exit = .ok ()
  trace : simples f r.log = beforeLeft o.trace
  kept : .left ∉ o.trace → endState s r = o.signal.mark o.state ∧ o.state.control = s.control
  left : .left ∈ o.trace → (endState s r).shape = s.shape ∧ (endState s r).current.policy = .break

/-- The evaluation agrees with the semantics, in a scope of the function `f`. -/
def Follows (f : Nat) (m : Eval Unit) (sem : Sem) : Prop := ∀ s o,
  s.current.policy = .stay → s.current.returnValue = f → sem s = some o → Agrees f s (m s) o

section Rules

variable {f : Nat} {m next : Eval Unit} {sem semNext : Sem} {s : State}

theorem Agrees.policy_ne_of_left {r : Run Action Exception Unit} {o : Outcome}
    (h : Agrees f s r o) (hl : .left ∈ o.trace) : (endState s r).current.policy ≠ .stay := by
  rw [(h.left hl).2]
  decide

theorem Agrees.policy_eq_of_normal {r : Run Action Exception Unit} {o : Outcome}
    (h : Agrees f s r o) (hs : s.current.policy = .stay) (hl : .left ∉ o.trace)
    (hn : o.signal = .normal) : endState s r = o.state ∧ o.state.current.policy = .stay := by
  obtain ⟨hr, hc⟩ := h.kept hl
  rw [hn] at hr
  exact ⟨hr, (State.policy_eq_of_control hc).trans hs⟩

/-- What was left by a `break` stays left. -/
theorem Agrees.append_of_left {r : Run Action Exception Unit} {o p : Outcome}
    (h : Agrees f s r o) (hl : .left ∈ o.trace) (t : List Structured.Event)
    (hp : p.trace = o.trace ++ t) : Agrees f s r p where
  exit := h.exit
  trace := by rw [hp, beforeLeft_append_of_mem hl, h.trace]
  kept := fun hn => absurd (by rw [hp]; exact List.mem_append_left _ hl) hn
  left := fun _ => h.left hl

theorem Agrees.append_of_kept {r r' : Run Action Exception Unit} {o p : Outcome}
    (h : Agrees f s r o) (hs : s.current.policy = .stay) (hl : .left ∉ o.trace)
    (hn : o.signal = .normal) (h' : Agrees f o.state r' p) :
    Agrees f s ⟨r'.exit, r.log ++ r'.log⟩ { p with trace := o.trace ++ p.trace } := by
  obtain ⟨hr, -⟩ := h.policy_eq_of_normal hs hl hn
  have hc := (h.kept hl).2
  have after : endState s ⟨r'.exit, r.log ++ r'.log⟩ = endState o.state r' := by
    rw [endState, List.foldl_append, ← hr]
  refine ⟨h'.exit, ?_, fun hq => ?_, fun hq => ?_⟩
  · rw [simples_append, h.trace, h'.trace, beforeLeft_append_of_not_mem hl]
  · rw [after]
    obtain ⟨hm, hk⟩ := h'.kept fun hm => hq (List.mem_append_right _ hm)
    exact ⟨hm, hk.trans hc⟩
  · rw [after]
    obtain ⟨hm, hk⟩ := h'.left ((List.mem_append.1 hq).resolve_left hl)
    exact ⟨hm.trans (State.shape_eq_of_control hc), hk⟩

theorem Agrees.policy_ne_of_broke {r : Run Action Exception Unit} {o : Outcome}
    (h : Agrees f s r o) (hb : o.signal = .broke) : (endState s r).current.policy ≠ .stay := by
  by_cases hl : .left ∈ o.trace
  · exact h.policy_ne_of_left hl
  · rw [(h.kept hl).1, hb]
    exact nofun

theorem Agrees.returnValue_eq {r : Run Action Exception Unit} {o : Outcome} (h : Agrees f s r o)
    (hl : .left ∉ o.trace) : o.state.current.returnValue = s.current.returnValue :=
  State.returnValue_eq_of_shape (State.shape_eq_of_control (h.kept hl).2)

theorem Agrees.andThen {o p : Outcome} (first : Agrees f s (m s) p) (hs : s.current.policy = .stay)
    (hf : s.current.returnValue = f) (hn : Follows f next semNext) (hsig : p.signal = .normal)
    (ho : p.andThen semNext = some o) : Agrees f s ((m >>= fun _ => ifStay next) s) o := by
  obtain ⟨q, hq, rfl⟩ := Option.map_eq_some_iff.1 ho
  by_cases hl : .left ∈ p.trace
  · rw [run_bind_ifStay_of_ne first.exit (first.policy_ne_of_left hl)]
    exact first.append_of_left hl q.trace rfl
  · obtain ⟨hr, hp⟩ := first.policy_eq_of_normal hs hl hsig
    have hr : m.after s = p.state := hr
    rw [run_bind_ifStay_of_stay first.exit (by rw [hr, hp]), hr]
    exact first.append_of_kept hs hl hsig (hn p.state q hp ((first.returnValue_eq hl).trans hf) hq)

/-- **The rule of a sequence.** -/
theorem Follows.seq (hm : Follows f m sem) (hn : Follows f next semNext) :
    Follows f (m >>= fun _ => ifStay next) (Structured.seq sem semNext) := by
  intro s o hs hf ho
  obtain ⟨p, hp, ho⟩ := Option.bind_eq_some_iff.1 ho
  have first := hm s p hs hf hp
  cases hsig : p.signal with
  | normal =>
    rw [hsig] at ho
    exact first.andThen hs hf hn hsig ho
  | broke =>
    rw [hsig] at ho
    cases ho
    rw [run_bind_ifStay_of_ne first.exit (first.policy_ne_of_broke hsig)]
    exact first

/-- `pop` hands a `Break` on, whatever kind of scope but a function's it comes from. -/
theorem Follows.scope {type : ScopeType} (ht : type ≠ .function) (hm : Follows f m sem) :
    Follows f (evalScope type m) (Structured.scope type sem) := by
  intro s o hs hf ho
  obtain ⟨p, hp, rfl⟩ := Option.map_eq_some_iff.1 ho
  have inside := hm (s.push type) p rfl (by simp [State.push, ht, hf]) hp
  have after : endState s (evalScope type m s) = (m.after (s.push type)).pop :=
    after_evalScope type m s
  refine ⟨inside.exit, ?_, fun hl => ?_, fun hl => ?_⟩
  · rw [run_evalScope, ← inside.trace]
    simp [simples]
  · obtain ⟨hr, hc⟩ := inside.kept hl
    have hr : m.after (s.push type) = p.signal.mark p.state := hr
    refine ⟨?_, State.control_pop hc⟩
    rw [after, hr]
    cases p.signal with
    | normal => rfl
    | broke => exact State.pop_breakLoop ht (State.shape_eq_of_control hc)
  · obtain ⟨hr, hp⟩ := inside.left hl
    rw [after]
    exact ⟨State.shape_pop hr, State.policy_pop_of_break ht hr hp⟩

/-- **The rule of a repeat**: the rounds agree until one is left by a `break`. -/
theorem Follows.loop (hm : Follows f (evalScope .loop m) sem) (count : Nat) :
    Follows f (evalRepeat m count) (Structured.loop sem count) := by
  induction count with
  | zero => exact fun s o _ _ ho => by cases ho
  | succ count ih =>
    intro s o hs hf ho
    obtain ⟨p, hp, ho⟩ := Option.bind_eq_some_iff.1 ho
    have first := hm s p hs hf hp
    cases hsig : p.signal with
    | normal =>
      rw [hsig] at ho
      exact first.andThen hs hf ih hsig ho
    | broke =>
      rw [hsig] at ho
      cases ho
      rw [evalRepeat, run_bind_ifStay_of_ne first.exit (first.policy_ne_of_broke hsig)]
      by_cases hl : .left ∈ p.trace
      · exact first.append_of_left hl [.left] rfl
      · have ⟨hr, hc⟩ := first.kept hl
        rw [hsig] at hr
        refine ⟨first.exit, ?_, fun hn => absurd (by simp) hn, fun _ => ?_⟩
        · rw [first.trace, beforeLeft_append_of_not_mem hl, beforeLeft, List.append_nil]
        · rw [hr]
          exact ⟨State.shape_eq_of_control (s := s) (t := p.state) hc, rfl⟩

theorem Follows.skip : Follows f (pure ()) Structured.skip := by
  rintro s o - - ⟨⟩
  exact ⟨rfl, rfl, fun _ => ⟨rfl, rfl⟩, nofun⟩

theorem Follows.breakLoop : Follows f (Eval.perform .breakLoop) Structured.breakLoop := by
  rintro s o - - ⟨⟩
  exact ⟨rfl, rfl, fun _ => ⟨rfl, rfl⟩, nofun⟩

/-! ## Statements -/

/-- A control statement is executed, which is not in the trace. -/
theorem Follows.execute {statement : WorkflowStatement} (hst : statement.isSimple = false)
    (hm : Follows f m sem) : Follows f (recordStatement statement >>= fun _ => m) sem := by
  intro s o hs hf ho
  have inside := hm s o hs hf ho
  refine ⟨inside.exit, ?_, inside.kept, inside.left⟩
  rw [← inside.trace]
  exact List.filterMap_cons_none (by simp [hst])

theorem Follows.simple {statement : WorkflowStatement} (hst : statement.isSimple) :
    Follows f (recordStatement statement >>= fun _ => m)
      (Structured.simple m statement) := by
  rintro s o - hf ho
  obtain ⟨⟨⟩, hr, rfl⟩ := Option.map_eq_some_iff.1 ho
  obtain ⟨he, hc, rest⟩ := result_spec hr
  refine ⟨he, ?_, fun _ => ⟨rfl, hc⟩, fun hl => by simp at hl⟩
  rw [hf] at rest
  refine (List.filterMap_cons_some (b := statement) ?_).trans (congrArg _ rest)
  simp only [hst, hf, and_self, if_true]

/-- What is opaque can be gone through first. -/
theorem Agrees.after_opaque {c : Eval Bool} {b : Bool} (hc : result c s = some b)
    (hf : s.current.returnValue = f) {r : Run Action Exception Unit} {o : Outcome}
    (h : Agrees f (c.after s) r o) : Agrees f s ⟨r.exit, (c s).log ++ r.log⟩ o := by
  obtain ⟨-, control, none⟩ := result_spec hc
  have after : endState s ⟨r.exit, (c s).log ++ r.log⟩ = endState (c.after s) r :=
    List.foldl_append
  refine ⟨h.exit, ?_, fun hl => ?_, fun hl => ?_⟩
  · rw [simples_append, ← hf, none, hf, h.trace, List.nil_append]
  · rw [after]
    exact ⟨(h.kept hl).1, (h.kept hl).2.trans control⟩
  · rw [after]
    exact ⟨(h.left hl).1.trans (State.shape_eq_of_control control), (h.left hl).2⟩

/-- **The rule of a condition**, before something that is done when it does not hold. -/
theorem Follows.branch {c : Eval Bool} {rest : Bool → Eval Unit}
    (hm : Follows f (evalScope .local m) sem) (hn : Follows f next semNext)
    (ht : ∀ s, rest true s = ⟨.ok (), []⟩)
    (hr : ∀ s, s.current.policy = .stay → rest false s = next s) :
    Follows f (evalCondition c m >>= rest) (Structured.branch c sem semNext) := by
  intro s o hs hf ho
  obtain ⟨b, hc, ho⟩ := Option.bind_eq_some_iff.1 ho
  obtain ⟨hb, control, -⟩ := result_spec hc
  have hs' := (State.policy_eq_of_control control).trans hs
  have hf' := (State.returnValue_eq_of_shape (State.shape_eq_of_control control)).trans hf
  cases b with
  | true =>
    have inside := hm (c.after s) o hs' hf' ho
    rw [run_condition_holds hb ht]
    exact inside.after_opaque hc hf
  | false =>
    have inside := hn (c.after s) o hs' hf' ho
    rw [run_condition_fails hb, hr _ hs']
    exact inside.after_opaque hc hf

theorem Agrees.trace_eq_iff {r : Run Action Exception Unit} {o : Outcome}
    (h : Agrees f s r o) : simples f r.log = executed o.trace ↔ afterLeft o.trace = [] := by
  rw [h.trace, executed_eq, List.self_eq_append_right]

end Rules

section Trees

set_option linter.unusedSectionVars false

variable (host : Host) {leaves : Leaves}
  (hb : leaves.simple .breakStatement = Eval.perform .breakLoop) (f : Nat)
include hb

mutual

theorem statement_follows : ∀ st,
    Follows f (evalStatement host leaves st) (Structured.statement host leaves st)
  | .ifBlock ⟨⟨condition, block⟩, elifBlocks, elseBlock⟩ => by
    rw [evalStatement, Structured.statement]
    have otherwise : Follows f
        (if elseBlock.isEmpty then pure () else evalScope .local (evalStatements host leaves elseBlock))
        (if elseBlock.isEmpty then skip
          else Structured.scope .local (Structured.statements host leaves elseBlock)) := by
      split
      · exact .skip
      · exact .scope nofun (statements_follow elseBlock)
    refine .execute rfl (.branch (.scope nofun (statements_follow block))
      (elifs_follow elifBlocks otherwise) (fun s => ?_) fun s hs => ?_)
    · by_cases hs : s.current.policy = .stay
      · exact run_ifStay_of_stay hs
      · exact run_ifStay_of_ne hs
    · exact run_ifStay_of_stay hs
  | .repeatBlock ⟨block⟩ => by
    rw [evalStatement, Structured.statement]
    exact .execute rfl (.loop (.scope nofun (statements_follow block)) _)
  | .breakStatement => by
    rw [evalStatement, Structured.statement, hb]
    · exact .execute rfl .breakLoop
    all_goals simp
  | .importStatement _ | .variableDeclaration _ _ _ | .assignment _ _ | .delay _
  | .returnStatement _ | .raise _ | .expression _ | .workflowDefinition _ => by
    rw [evalStatement, Structured.statement]
    · exact .simple rfl
    all_goals simp

theorem statements_follow : ∀ sts,
    Follows f (evalStatements host leaves sts) (Structured.statements host leaves sts)
  | [] => by
    rw [evalStatements, Structured.statements]
    exact .skip
  | st :: sts => by
    rw [evalStatements, Structured.statements]
    exact .seq (statement_follows st) (statements_follow sts)

theorem elifs_follow : ∀ (blocks : List (ConditionBlock WorkflowStatement)) {otherwise : Eval Unit}
    {semOtherwise : Sem}, Follows f otherwise semOtherwise →
    Follows f (evalElifBlocks host leaves blocks otherwise)
      (Structured.elifs host leaves blocks semOtherwise)
  | [], _, _, ho => by
    rw [evalElifBlocks, Structured.elifs]
    exact ho
  | ⟨condition, block⟩ :: blocks, _, _, ho => by
    rw [evalElifBlocks, Structured.elifs]
    refine .branch (.scope nofun (statements_follow block))
      (elifs_follow blocks ho) (fun s => rfl) fun s hs => ?_
    exact run_ifStay_of_stay hs

end

end Trees

/-- **A `break` leaves the innermost repeat alone if, and only if, no simple statement is to be
executed any more.** At the level of a program, and in the body of a workflow. -/
theorem break_leaves_innermost_iff (host : Host) {leaves : Leaves}
    (hb : leaves.simple .breakStatement = Eval.perform .breakLoop) (statements : WorkflowScope)
    (s : State) (hs : s.current.policy = .stay) (o : Outcome) :
    (Structured.statements host leaves statements s = some o →
      (simples s.current.returnValue (evalStatements host leaves statements s).log =
        executed o.trace ↔ afterLeft o.trace = [])) ∧
    (Structured.scope .local (Structured.statements host leaves statements) s = some o →
      (simples s.current.returnValue (evalScope .local (evalStatements host leaves statements) s).log =
        executed o.trace ↔ afterLeft o.trace = [])) := by
  have follows := statements_follow host hb s.current.returnValue statements
  constructor
  · exact fun ho => (follows s o hs rfl ho).trace_eq_iff
  · exact fun ho => (follows.scope ScopeType.local_ne_function s o hs rfl ho).trace_eq_iff

/-- The evaluators of the interpreter, without invocations. -/
abbrev plainLeaves : Leaves := evalLeaves .plain (evalInvocations .plain 0)

/-- `repeat [import inside; break]` -/
def importOnce : WorkflowStatement :=
  .repeatBlock ⟨[.importStatement ⟨"inside", []⟩, .breakStatement]⟩

theorem importOnce_last : ∃ o, Structured.statements .plain plainLeaves [importOnce] (.fresh []) = some o ∧
    (simples 0 (evalStatements .plain plainLeaves [importOnce] (.fresh [])).log = executed o.trace ↔
      afterLeft o.trace = []) :=
  ⟨_, rfl, (break_leaves_innermost_iff .plain rfl [importOnce] (.fresh []) rfl _).1 rfl⟩

/-- What follows the repeat is not executed. -/
theorem importOnce_ends_program :
    ¬ ∀ host depth statements s o, s.current.policy = .stay →
      Structured.statements host (evalLeaves host (evalInvocations host depth)) statements s = some o →
      simples s.current.returnValue
        (evalStatements host (evalLeaves host (evalInvocations host depth)) statements s).log =
          executed o.trace := by
  intro h
  have same := h .plain 0 [importOnce, .importStatement ⟨"after", []⟩] (.fresh []) _ rfl rfl
  exact absurd (congrArg List.length same) (by decide)

end EzCpp.Flow
