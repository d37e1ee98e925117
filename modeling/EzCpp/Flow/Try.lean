import EzCpp.Flow.Flags

/-!
# Where a try leads

A `try` that meets an error sets the return value and the policy of its function, and the evaluation
of the statement goes on with the error for an operand. Only after the statement, or the condition,
is the policy looked at. So the error becomes the result of the function where the rest of the
statement does no harm (`Absorbs`): it must come to its end and must not set another return value,
and a condition must not hold, or else its branch is executed first.

That nothing else can go wrong is shown along the control statements: a part of a function
propagates every error (`Propagates`) if and only if all that is evaluated in it absorbs the errors
of its tries (`absorbedStatement`, `absorbedStatements`, `absorbedElifs`).
-/

namespace EzCpp.Flow

open EzCpp.Lib Ast

/-! ## Propagation -/

/-- Where a `try` has failed, the function ends with the error, and executes nothing before. -/
def Propagates {α : Type} (f : Nat) (s : State) (r : Run Action Exception α) : Prop :=
  ∀ pre what post, r.log = pre ++ tryFailed f what :: post →
    (∃ a, r.exit = .ok a) ∧ (r.log.foldl State.apply s).returns f = some (.error what) ∧
    ∀ statement, .execute f statement ∉ post

/-- What is evaluated comes to its end where a `try` in it fails, and leaves the error alone. -/
def Absorbs {α : Type} (m : Eval α) (s : State) : Prop :=
  ∀ what, tryFailed s.current.returnValue what ∈ (m s).log → (∃ a, (m s).exit = .ok a) ∧
    (m.after s).returns s.current.returnValue = some (.error what)

section Runs

variable {α β : Type} {f : Nat} {s : State} {r : Run Action Exception α}

theorem propagates_of_none (h : ∀ what, tryFailed f what ∉ r.log) : Propagates f s r := by
  intro pre what post hl
  exact absurd (hl ▸ List.mem_append_right _ List.mem_cons_self) (h what)

/-- Where no statement is executed it does not matter when a `try` fails. -/
theorem propagates_iff_of_idle (h : ∀ statement, .execute f statement ∉ r.log) :
    Propagates f s r ↔ ∀ what, tryFailed f what ∈ r.log → (∃ a, r.exit = .ok a) ∧
      (r.log.foldl State.apply s).returns f = some (.error what) := by
  constructor
  · intro hr what hm
    obtain ⟨pre, post, hl⟩ := List.append_of_mem hm
    obtain ⟨exit, cell, -⟩ := hr pre what post hl
    exact ⟨exit, cell⟩
  · intro hr pre what post hl
    have hm : tryFailed f what ∈ r.log := hl ▸ List.mem_append_right _ List.mem_cons_self
    obtain ⟨exit, cell⟩ := hr what hm
    refine ⟨exit, cell, fun statement hs => h statement ?_⟩
    rw [hl]
    exact List.mem_append_right _ (List.mem_cons_of_mem _ hs)

/-- What comes before the first failure does not matter. -/
theorem propagates_append {l : List Action} (h : ∀ what, tryFailed f what ∉ l) :
    Propagates f s ⟨r.exit, l ++ r.log⟩ ↔ Propagates f (l.foldl State.apply s) r := by
  simp only [Propagates, List.foldl_append]
  constructor
  · intro hr pre what post hl
    exact hr (l ++ pre) what post (by rw [hl, List.append_assoc])
  · intro hr pre what post hl
    rcases List.append_eq_append_iff.1 hl with ⟨as, -, hl⟩ | ⟨cs, hl, hc⟩
    · exact hr as what post hl
    · cases cs with
      | nil => exact hr [] what post hc.symm
      | cons c cs =>
        obtain ⟨rfl, -⟩ := List.cons.inj hc
        exact absurd (hl ▸ List.mem_append_right _ List.mem_cons_self) (h what)

theorem absorbs_congr {m m' : Eval α} (h : m s = m' s) : Absorbs m s ↔ Absorbs m' s := by
  rw [Absorbs, Absorbs, Coroutine.after, Coroutine.after, h]

/-- What is broken off propagates no error. -/
theorem propagates_of_broken {r' : Run Action Exception β} (hl : r'.log = r.log)
    (he : ∀ a, r.exit ≠ .ok a) (he' : ∀ b, r'.exit ≠ .ok b) :
    Propagates f s r' ↔ Propagates f s r := by
  simp only [Propagates, hl]
  constructor
  · intro h pre what post hs
    obtain ⟨⟨b, hb⟩, -⟩ := h pre what post hs
    exact absurd hb (he' b)
  · intro h pre what post hs
    obtain ⟨⟨a, ha⟩, -⟩ := h pre what post hs
    exact absurd ha (he a)

end Runs

/-- Evaluated as a part of the function `f`, this propagates errors just when `absorbed` is true of
the state it is evaluated from; and an error that is met in it sets the policy. -/
def Judged (f : Nat) (m : Eval Unit) (absorbed : State → Prop) : Prop :=
  ∀ s, s.current.returnValue = f → f < s.pushed → .timeout ∉ (m s).log →
    (Propagates f s (m s) ↔ absorbed s) ∧
    ∀ what, tryFailed f what ∈ (m s).log → (m s).exit = .ok () →
      (m.after s).current.policy ≠ .stay

/-! ## What is to be absorbed -/

namespace Absorbed

/-- In a sequence: in the first part, and in the next one if there is any. -/
def sequence (m : Eval Unit) (first next : State → Prop) (s : State) : Prop :=
  first s ∧ ((m s).exit = .ok () → (m.after s).current.policy = .stay → next (m.after s))

/-- In the rounds of a repeat. -/
def rounds (m : Eval Unit) (absorbed : State → Prop) : Nat → State → Prop
  | 0 => fun _ => True
  | count + 1 => sequence (evalScope .loop m) (fun s => absorbed (s.push .loop))
      (rounds m absorbed count)

/-- In a condition an error must be absorbed, and the condition must not hold unless there is
nothing to be executed. Besides, in what is evaluated next. -/
def branch (condition : Eval Bool) (statements : WorkflowScope) (yes no : State → Prop)
    (s : State) : Prop :=
  (Absorbs condition s ∧ ∀ what, tryFailed s.current.returnValue what ∈ (condition s).log →
    (condition s).exit = .ok true → statements = []) ∧
  ((condition s).exit = .ok true → yes ((condition.after s).push .local)) ∧
  ((condition s).exit = .ok false → (condition.after s).current.policy = .stay →
    no (condition.after s))

end Absorbed

section

variable (host : Host) (leaves : Leaves)

mutual

/-- Every error that a `try` meets in this statement is absorbed where it is met. -/
def absorbedStatement (statement : WorkflowStatement) : State → Prop :=
  match statement with
  | .ifBlock ⟨⟨condition, statements⟩, elifBlocks, elseBlock⟩ =>
    Absorbed.branch (leaves.condition condition) statements (absorbedStatements statements)
      (absorbedElifs elifBlocks fun s =>
        elseBlock.isEmpty ∨ absorbedStatements elseBlock (s.push .local))
  | .repeatBlock ⟨statements⟩ =>
    Absorbed.rounds (evalStatements host leaves statements) (absorbedStatements statements)
      host.maxLoopCount
  | statement => Absorbs (leaves.simple statement)

def absorbedStatements : List WorkflowStatement → State → Prop
  | [] => fun _ => True
  | statement :: statements => Absorbed.sequence (evalStatement host leaves statement)
      (absorbedStatement statement) (absorbedStatements statements)

def absorbedElifs (blocks : List (ConditionBlock WorkflowStatement)) (otherwise : State → Prop) :
    State → Prop :=
  match blocks with
  | [] => otherwise
  | ⟨condition, statements⟩ :: blocks =>
    Absorbed.branch (leaves.condition condition) statements (absorbedStatements statements)
      (absorbedElifs blocks otherwise)

end

end

/-! ## Rules -/

section Rules

variable {f : Nat} {m next : Eval Unit} {first second : State → Prop}

theorem Judged.pure : Judged f (Pure.pure ()) fun _ => True := by
  intro s _ _ _
  exact ⟨iff_of_true (propagates_of_none nofun) trivial, nofun⟩

theorem sequence_of_broken {s : State} {r : Run Action Exception Unit}
    (h : Propagates f s (m s) ↔ first s) (he : ∀ a, (m s).exit ≠ .ok a) (hl : r.log = (m s).log)
    (he' : ∀ a, r.exit ≠ .ok a) : Propagates f s r ↔ Absorbed.sequence m first second s := by
  refine (propagates_of_broken hl he he').trans (h.trans ⟨fun hs => ⟨hs, fun hm => ?_⟩, And.left⟩)
  exact absurd hm (he ())

/-- **The rule of a sequence**: after an error that was met nothing follows, for the policy. -/
theorem Judged.sequence (hd : Does f m) (hm : Judged f m first) (hn : Judged f next second) :
    Judged f (m >>= fun _ => ifStay next) (Absorbed.sequence m first second) := by
  intro s hf hp ht
  cases he : (m s).exit with
  | ok a =>
    have hl : .timeout ∉ (m s).log := fun h => ht <| by
      rw [Coroutine.bind_ok he]
      exact List.mem_append_left _ h
    obtain ⟨propagates, policy⟩ := hm s hf hp hl
    by_cases hs : (m.after s).current.policy = .stay
    · have none : ∀ what, tryFailed f what ∉ (m s).log := fun what hw => policy what hw he hs
      have frame := (hd s hf hp hl).frame a he
      have after : (m >>= fun _ => ifStay next).after s = next.after (m.after s) := by
        rw [Coroutine.after, run_bind_ifStay_of_stay he hs, List.foldl_append]
        rfl
      rw [run_bind_ifStay_of_stay he hs] at ht
      obtain ⟨propagates', policy'⟩ := hn (m.after s) (frame.returnValue.trans hf)
        (hp.trans_le frame.pushed) fun h => ht (List.mem_append_right _ h)
      rw [after, run_bind_ifStay_of_stay he hs]
      refine ⟨?_, fun what hw => policy' what ((List.mem_append.1 hw).resolve_left (none what))⟩
      rw [propagates_append none]
      refine propagates'.trans ⟨fun h => ⟨propagates.mp (propagates_of_none none), fun _ _ => h⟩, ?_⟩
      exact fun h => h.2 he hs
    · have run : (m >>= fun _ => ifStay next) s = m s := run_bind_ifStay_of_ne he hs
      have after : (m >>= fun _ => ifStay next).after s = m.after s := by
        rw [Coroutine.after, run, Coroutine.after]
      rw [after, run]
      refine ⟨propagates.trans ⟨fun h => ⟨h, fun _ hs' => absurd hs' hs⟩, And.left⟩, policy⟩
  | throw e =>
    rw [Coroutine.bind_throw he] at ht ⊢
    exact ⟨sequence_of_broken (hm s hf hp ht).1 (by simp [he]) rfl (Exit.throw_ne_ok e),
      fun _ _ he => absurd he (Exit.throw_ne_ok e _)⟩
  | cut n =>
    rw [Coroutine.bind_cut he] at ht ⊢
    exact ⟨sequence_of_broken (hm s hf hp ht).1 (by simp [he]) rfl (Exit.cut_ne_ok n),
      fun _ _ he => absurd he (Exit.cut_ne_ok n _)⟩

/-! ## Scopes -/

theorem propagate_ne_stay {popped : Scope} {policy : FlowControlPolicy} (h : policy ≠ .stay) :
    State.propagate popped policy ≠ .stay := by
  unfold State.propagate
  split
  · exact h
  · exact nofun
  · exact nofun
  · exact nofun
  · exact nofun
  · exact h

/-- What a scope has been told gets out, unless it is the scope of a function. -/
theorem propagate_ne_stay_of_popped {popped : Scope} {policy : FlowControlPolicy}
    (ht : popped.type ≠ .function) (h : popped.policy ≠ .stay) :
    State.propagate popped policy ≠ .stay := by
  unfold State.propagate
  split
  next hs => exact absurd hs h
  next => exact nofun
  next => exact nofun
  next => exact nofun
  next => exact nofun
  next hk _ => exact absurd hk ht

theorem policy_pop {s t : State} {type : ScopeType} (h : (s.push type).Frame t) :
    t.pop.current.policy = State.propagate t.current s.current.policy := by
  have outer : t.outer = s.current :: s.outer := h.outer
  rw [State.pop, outer]

theorem push_returns {type : ScopeType} (ht : type ≠ .function) (s : State) :
    (s.push type).returns = s.returns := by
  simp [State.push, ht]

/-- A failure in a log that is enclosed in actions of the scopes is one in the log. -/
theorem split_enclosed {type : ScopeType} {what : String} {l tail pre post : List Action}
    (ht : ∀ a ∈ tail, a.owner = none)
    (h : .push type :: (l ++ tail) = pre ++ tryFailed f what :: post) :
    ∃ pre' post', l = pre' ++ tryFailed f what :: post' ∧ post = post' ++ tail := by
  cases pre with
  | nil => cases (List.cons.inj h).1
  | cons a pre =>
    have rest : l ++ tail = pre ++ tryFailed f what :: post := (List.cons.inj h).2
    rcases List.append_eq_append_iff.1 rest with ⟨as, -, hl⟩ | ⟨cs, hl, hc⟩
    · exact nomatch ht (tryFailed f what) (hl ▸ List.mem_append_right _ List.mem_cons_self)
    · cases cs with
      | nil =>
        have hc : tail = tryFailed f what :: post := hc.symm
        exact nomatch ht (tryFailed f what) (hc ▸ List.mem_cons_self)
      | cons c cs =>
        obtain ⟨rfl, hp⟩ := List.cons.inj hc
        exact ⟨pre, cs, hl, hp⟩

/-- A scope that is pushed and popped around a run does not matter. -/
theorem propagates_scope {s : State} {type : ScopeType} {r : Run Action Exception Unit} :
    Propagates f s ⟨r.exit, .push type :: (r.log ++ [.pop])⟩ ↔ Propagates f (s.push type) r := by
  have owner : ∀ a ∈ [Action.pop], a.owner = none := List.forall_mem_singleton.2 rfl
  simp only [Propagates, foldl_scope, State.pop_returns]
  constructor
  · intro h pre what post hl
    obtain ⟨exit, cell, quiet⟩ := h (.push type :: pre) what (post ++ [.pop]) (by rw [hl]; simp)
    exact ⟨exit, cell, fun statement hs => quiet statement (List.mem_append_left _ hs)⟩
  · intro h pre what post hl
    obtain ⟨pre', post', inside, rfl⟩ := split_enclosed owner hl
    obtain ⟨exit, cell, quiet⟩ := h pre' what post' inside
    exact ⟨exit, cell, by simpa using quiet⟩

theorem Judged.scope {type : ScopeType} (ht : type ≠ .function) (hd : Does f m)
    (hm : Judged f m first) : Judged f (evalScope type m) fun s => first (s.push type) := by
  intro s hf hp hl
  rw [run_evalScope] at hl
  have hf' : (s.push type).current.returnValue = f := by simpa [State.push, ht] using hf
  have inTime : .timeout ∉ (m (s.push type)).log :=
    fun h => hl (List.mem_cons_of_mem _ (List.mem_append_left _ h))
  obtain ⟨propagates, policy⟩ := hm (s.push type) hf' (Nat.lt_succ_of_lt hp) inTime
  rw [after_evalScope, run_evalScope, propagates_scope]
  refine ⟨propagates, fun what hw he => ?_⟩
  have frame : (s.push type).Frame (m.after (s.push type)) :=
    (hd (s.push type) hf' (Nat.lt_succ_of_lt hp) inTime).frame () he
  have inside : tryFailed f what ∈ (m (s.push type)).log := by simpa using hw
  have kind : (m.after (s.push type)).current.type ≠ .function := by
    have same : (m.after (s.push type)).current.type = type := frame.type
    rwa [same]
  rw [policy_pop frame]
  exact propagate_ne_stay_of_popped kind (policy what inside he)

theorem Judged.rounds (hd : Does f m) (hm : Judged f m first) (count : Nat) :
    Judged f (evalRepeat m count) (Absorbed.rounds m first count) := by
  induction count with
  | zero => exact .pure
  | succ count ih =>
    exact .sequence (hd.scope ScopeType.loop_ne_function) (hm.scope ScopeType.loop_ne_function hd) ih

/-! ## Conditions -/

section Flagged

variable {α : Type} {c : Eval α} {s : State}

theorem not_execute_of_flagged (hc : c.Meets flagged) (hp : f < s.pushed)
    (ht : .timeout ∉ (c s).log) (statement : WorkflowStatement) :
    .execute f statement ∉ (c s).log := by
  have idle : Idle s (c s).log := by
    cases he : (c s).exit with
    | ok a => exact ((hc.returns he).resolve_left ht).1
    | throw e => exact (hc.throws he).resolve_left ht
    | cut n => exact (hc.cuts he).resolve_left ht
  exact fun hm => absurd (idle f statement hm) (Nat.not_le.2 hp)

/-- What executes no statement propagates its errors just when it absorbs them. -/
theorem propagates_iff_absorbs (hc : c.Meets flagged) (hf : s.current.returnValue = f)
    (hp : f < s.pushed) (ht : .timeout ∉ (c s).log) : Propagates f s (c s) ↔ Absorbs c s := by
  rw [propagates_iff_of_idle (not_execute_of_flagged hc hp ht), Absorbs, hf]
  rfl

end Flagged

section Branch

variable {host : Host} {leaves : Leaves} {c : Eval Bool} {s : State} {statements : WorkflowScope}
  {rest : Bool → Eval Unit}

theorem execute_mem_evalStatement (statement : WorkflowStatement) (s : State) :
    .execute s.current.returnValue statement ∈ (evalStatement host leaves statement s).log := by
  have recorded : .execute s.current.returnValue statement ∈ (recordStatement statement s).log :=
    List.mem_singleton_self _
  cases statement with
  | ifBlock block | repeatBlock block =>
    rw [evalStatement]
    exact Coroutine.mem_log_bind recorded
  | _ =>
    rw [evalStatement]
    · exact Coroutine.mem_log_bind recorded
    all_goals simp

/-- A scope with a statement in it executes this one. -/
theorem execute_mem_evalScope (statement : WorkflowStatement) (statements : WorkflowScope)
    (s : State) : .execute s.current.returnValue statement ∈
      (evalScope .local (evalStatements host leaves (statement :: statements)) s).log := by
  rw [run_evalScope, evalStatements]
  refine List.mem_cons_of_mem _ (List.mem_append_left _ (Coroutine.mem_log_bind ?_))
  exact execute_mem_evalStatement statement (s.push .local)

/-- A scope leaves the policy set. -/
theorem policy_evalScope_ne_stay {type : ScopeType} (hd : Does f m)
    (hf : (s.push type).current.returnValue = f) (hp : f < s.pushed)
    (ht : .timeout ∉ (evalScope type m s).log) (he : (evalScope type m s).exit = .ok ())
    (hs : s.current.policy ≠ .stay) : ((evalScope type m).after s).current.policy ≠ .stay := by
  rw [run_evalScope] at ht he
  have inTime : .timeout ∉ (m (s.push type)).log :=
    fun h => ht (List.mem_cons_of_mem _ (List.mem_append_left _ h))
  have frame : (s.push type).Frame (m.after (s.push type)) :=
    (hd (s.push type) hf (Nat.lt_succ_of_lt hp) inTime).frame () he
  rw [after_evalScope, policy_pop frame]
  exact propagate_ne_stay hs

/-- Where an error is met in a condition that holds, nothing may be left to be executed. -/
theorem branch_of_holds (hc : c.Meets flagged)
    (hm : Judged f (evalScope .local (evalStatements host leaves statements)) fun t =>
      first (t.push .local))
    (hf : s.current.returnValue = f) (hp : f < s.pushed) (hv : (c s).exit = .ok true)
    (ht : .timeout ∉ (c s).log)
    (hs : .timeout ∉ (evalScope .local (evalStatements host leaves statements) (c.after s)).log) :
    Propagates f s
      ⟨(evalScope .local (evalStatements host leaves statements) (c.after s)).exit,
        (c s).log ++ (evalScope .local (evalStatements host leaves statements) (c.after s)).log⟩ ↔
      Absorbed.branch c statements first second s := by
  have flags : Flagged s (c s).log (c.after s) := ((hc.returns hv).resolve_left ht).2
  have hf' : (c.after s).current.returnValue = f := flags.frame.returnValue.trans hf
  have scope : Propagates f (c.after s)
      (evalScope .local (evalStatements host leaves statements) (c.after s)) ↔
        first ((c.after s).push .local) :=
    (hm (c.after s) hf' (hp.trans_le flags.frame.pushed) hs).1
  have branch : Absorbed.branch c statements first second s ↔
      (Absorbs c s ∧ ((∃ what, tryFailed f what ∈ (c s).log) → statements = [])) ∧
        first ((c.after s).push .local) := by
    simp only [Absorbed.branch, hv, hf]
    simp
  rw [branch, ← scope]
  by_cases failed : ∃ what, tryFailed f what ∈ (c s).log
  · cases statements with
    | nil =>
      have run : evalScope .local (evalStatements host leaves []) (c.after s) =
          ⟨.ok (), [.push .local, .pop]⟩ := by
        rw [evalStatements]
        rfl
      have none : ∀ what, tryFailed f what ∉ [Action.push .local, .pop] := by simp
      have idle : ∀ statement, Action.execute f statement ∉ (c s).log ++ [.push .local, .pop] := by
        simpa using not_execute_of_flagged hc hp ht
      have cell : ((c s).log ++ [Action.push .local, .pop]).foldl State.apply s =
          ((c.after s).push .local).pop := List.foldl_append
      rw [run, propagates_iff_of_idle idle, cell, State.pop_returns,
        push_returns ScopeType.local_ne_function]
      constructor
      · intro h
        refine ⟨⟨fun what hw => ?_, fun _ => rfl⟩, propagates_of_none none⟩
        rw [hf] at hw ⊢
        exact ⟨⟨true, hv⟩, (h what (List.mem_append_left _ hw)).2⟩
      · rintro ⟨⟨absorbs, -⟩, -⟩ what hw
        have absorbed := absorbs what (hf.symm ▸ (List.mem_append.1 hw).resolve_right (none what))
        rw [hf] at absorbed
        exact ⟨⟨(), rfl⟩, absorbed.2⟩
    | cons statement statements =>
      obtain ⟨what, hw⟩ := failed
      refine iff_of_false (fun h => ?_) fun h => absurd (h.1.2 ⟨what, hw⟩) (List.cons_ne_nil _ _)
      obtain ⟨pre, post, hl⟩ := List.append_of_mem hw
      have executed : .execute (c.after s).current.returnValue statement ∈
          (evalScope .local (evalStatements host leaves (statement :: statements)) (c.after s)).log :=
        execute_mem_evalScope statement statements (c.after s)
      obtain ⟨-, -, quiet⟩ := h pre what (post ++ _) (by
        rw [hl, List.append_assoc]
        rfl)
      exact quiet statement (List.mem_append_right _ (hf' ▸ executed))
  · have none : ∀ what, tryFailed f what ∉ (c s).log := fun what hw => failed ⟨what, hw⟩
    have absorbs : Absorbs c s := fun what hw => absurd (hf ▸ hw) (none what)
    rw [propagates_append none]
    exact ⟨fun h => ⟨⟨absorbs, fun h' => absurd h' failed⟩, h⟩, And.right⟩

theorem after_ifStay_of_stay {t : State} (h : t.current.policy = .stay) :
    (ifStay next).after t = next.after t := by
  rw [Coroutine.after, run_ifStay_of_stay h, Coroutine.after]

/-- Where an error is met in a condition that does not hold, the policy keeps what is next away. -/
theorem branch_of_fails (hc : c.Meets flagged) (hn : Judged f next second)
    (hf : s.current.returnValue = f) (hp : f < s.pushed) (hv : (c s).exit = .ok false)
    (ht : .timeout ∉ (c s).log) (hs : .timeout ∉ (ifStay next (c.after s)).log) :
    (Propagates f s ⟨(ifStay next (c.after s)).exit, (c s).log ++ (ifStay next (c.after s)).log⟩ ↔
      Absorbed.branch c statements first second s) ∧
    ∀ what, tryFailed f what ∈ (c s).log ++ (ifStay next (c.after s)).log →
      (ifStay next (c.after s)).exit = .ok () →
      ((ifStay next).after (c.after s)).current.policy ≠ .stay := by
  have flags : Flagged s (c s).log (c.after s) := ((hc.returns hv).resolve_left ht).2
  have hf' : (c.after s).current.returnValue = f := flags.frame.returnValue.trans hf
  have branch : Absorbed.branch c statements first second s ↔
      Absorbs c s ∧ ((c.after s).current.policy = .stay → second (c.after s)) := by
    simp only [Absorbed.branch, hv]
    simp
  rw [branch]
  by_cases hstay : (c.after s).current.policy = .stay
  · have none : ∀ what, tryFailed f what ∉ (c s).log := fun what hw =>
      flags.failed (hf.symm ▸ hp) what (hf.symm ▸ hw) hstay
    have absorbs : Absorbs c s := fun what hw => absurd (hf ▸ hw) (none what)
    rw [run_ifStay_of_stay hstay] at hs
    obtain ⟨propagates, policy⟩ := hn (c.after s) hf' (hp.trans_le flags.frame.pushed) hs
    rw [after_ifStay_of_stay hstay, run_ifStay_of_stay hstay, propagates_append none]
    refine ⟨propagates.trans ⟨fun h => ⟨absorbs, fun _ => h⟩, fun h => h.2 hstay⟩, ?_⟩
    exact fun what hw => policy what ((List.mem_append.1 hw).resolve_left (none what))
  · have after : (ifStay next).after (c.after s) = c.after s := by
      rw [Coroutine.after, run_ifStay_of_ne hstay]
      rfl
    have idle := not_execute_of_flagged hc hp ht
    have same : Propagates f s ⟨.ok (), (c s).log⟩ ↔ Propagates f s (c s) := by
      rw [propagates_iff_of_idle (r := c s) idle, hv]
      refine (propagates_iff_of_idle (r := ⟨.ok (), (c s).log⟩) idle).trans ?_
      simp
    rw [after, run_ifStay_of_ne hstay, List.append_nil, same, propagates_iff_absorbs hc hf hp ht]
    exact ⟨⟨fun h => ⟨h, fun hs' => absurd hs' hstay⟩, And.left⟩, fun _ _ _ => hstay⟩

theorem branch_of_broken {r : Run Action Exception Unit} (hc : c.Meets flagged)
    (hf : s.current.returnValue = f) (hp : f < s.pushed) (ht : .timeout ∉ (c s).log)
    (he : ∀ b, (c s).exit ≠ .ok b) (hl : r.log = (c s).log) (he' : ∀ a, r.exit ≠ .ok a) :
    Propagates f s r ↔ Absorbed.branch c statements first second s := by
  rw [propagates_of_broken hl he he', propagates_iff_absorbs hc hf hp ht, Absorbed.branch]
  exact ⟨fun h => ⟨⟨h, fun _ _ hv => absurd hv (he true)⟩, fun hv => absurd hv (he true),
    fun hv => absurd hv (he false)⟩, fun h => h.1.1⟩

/-- **The rule of a condition.** -/
theorem Judged.branch (hc : c.Meets flagged) (hd : Does f (evalStatements host leaves statements))
    (hm : Judged f (evalStatements host leaves statements) first) (hn : Judged f next second)
    (htrue : ∀ t, rest true t = ⟨.ok (), []⟩) (hfalse : rest false = ifStay next) :
    Judged f (evalCondition c (evalStatements host leaves statements) >>= rest)
      (Absorbed.branch c statements first second) := by
  intro s hf hp ht
  have scope := hm.scope ScopeType.local_ne_function hd
  cases hv : (c s).exit with
  | ok b =>
    cases b with
    | true =>
      have run : (evalCondition c (evalStatements host leaves statements) >>= rest) s =
          ⟨(evalScope .local (evalStatements host leaves statements) (c.after s)).exit, (c s).log ++
            (evalScope .local (evalStatements host leaves statements) (c.after s)).log⟩ :=
        run_condition_holds hv htrue
      rw [run] at ht
      have inTime : .timeout ∉ (c s).log := fun h => ht (List.mem_append_left _ h)
      have inScope : .timeout ∉
          (evalScope .local (evalStatements host leaves statements) (c.after s)).log :=
        fun h => ht (List.mem_append_right _ h)
      have flags : Flagged s (c s).log (c.after s) := ((hc.returns hv).resolve_left inTime).2
      have hf' : (c.after s).current.returnValue = f := flags.frame.returnValue.trans hf
      have hp' : f < (c.after s).pushed := hp.trans_le flags.frame.pushed
      have after : (evalCondition c (evalStatements host leaves statements) >>= rest).after s =
          (evalScope .local (evalStatements host leaves statements)).after (c.after s) := by
        rw [Coroutine.after, run, List.foldl_append]
        rfl
      rw [after, run]
      refine ⟨branch_of_holds hc scope hf hp hv inTime inScope, fun what hw he => ?_⟩
      rcases List.mem_append.1 hw with hw | hw
      · refine policy_evalScope_ne_stay hd ?_ hp' inScope he
          (flags.failed (hf.symm ▸ hp) what (hf.symm ▸ hw))
        simpa [State.push] using hf'
      · exact (scope (c.after s) hf' hp' inScope).2 what hw he
    | false =>
      have run : (evalCondition c (evalStatements host leaves statements) >>= rest) s =
          ⟨(rest false (c.after s)).exit, (c s).log ++ (rest false (c.after s)).log⟩ :=
        run_condition_fails hv
      rw [run, hfalse] at ht
      have after : (evalCondition c (evalStatements host leaves statements) >>= rest).after s =
          (ifStay next).after (c.after s) := by
        rw [Coroutine.after, run, hfalse, List.foldl_append]
        rfl
      rw [after, run, hfalse]
      exact branch_of_fails hc hn hf hp hv (fun h => ht (List.mem_append_left _ h))
        fun h => ht (List.mem_append_right _ h)
  | throw e =>
    have run : (evalCondition c (evalStatements host leaves statements) >>= rest) s =
        ⟨.throw e, (c s).log⟩ := by
      rw [evalCondition, Coroutine.bind_assoc, Coroutine.bind_throw hv]
    rw [run] at ht ⊢
    exact ⟨branch_of_broken hc hf hp ht (by simp [hv]) rfl (Exit.throw_ne_ok e),
      fun _ _ he => absurd he (Exit.throw_ne_ok e _)⟩
  | cut n =>
    have run : (evalCondition c (evalStatements host leaves statements) >>= rest) s =
        ⟨.cut n, (c s).log⟩ := by
      rw [evalCondition, Coroutine.bind_assoc, Coroutine.bind_cut hv]
    rw [run] at ht ⊢
    exact ⟨branch_of_broken hc hf hp ht (by simp [hv]) rfl (Exit.cut_ne_ok n),
      fun _ _ he => absurd he (Exit.cut_ne_ok n _)⟩

end Branch

theorem run_recordStatement (statement : WorkflowStatement) (m : Eval Unit) (s : State) :
    (recordStatement statement >>= fun _ => m) s =
      ⟨(m s).exit, [.execute s.current.returnValue statement] ++ (m s).log⟩ := rfl

theorem after_recordStatement (statement : WorkflowStatement) (m : Eval Unit) (s : State) :
    (recordStatement statement >>= fun _ => m).after s = m.after s := rfl

theorem tryFailed_not_recorded (owner : Nat) (statement : WorkflowStatement) (what : String) :
    tryFailed f what ∉ [Action.execute owner statement] := by simp

/-- **The rule of a statement that has no statements in it.** -/
theorem Judged.simple (hm : m.Meets flagged) (statement : WorkflowStatement) :
    Judged f (recordStatement statement >>= fun _ => m) (Absorbs m) := by
  intro s hf hp ht
  rw [run_recordStatement] at ht
  have inTime : .timeout ∉ (m s).log := fun h => ht (List.mem_append_right _ h)
  rw [after_recordStatement, run_recordStatement,
    propagates_append (tryFailed_not_recorded _ statement)]
  refine ⟨propagates_iff_absorbs hm hf hp inTime, fun what hw he => ?_⟩
  have flags : Flagged s (m s).log (m.after s) := ((hm.returns he).resolve_left inTime).2
  have failed : tryFailed f what ∈ (m s).log := by simpa using hw
  exact flags.failed (hf.symm ▸ hp) what (hf.symm ▸ failed)

/-- Nothing happens before the first statement. -/
theorem Judged.record (hm : Judged f m first) (statement : WorkflowStatement) :
    Judged f (recordStatement statement >>= fun _ => m) first := by
  intro s hf hp ht
  rw [run_recordStatement] at ht
  obtain ⟨propagates, policy⟩ := hm s hf hp fun h => ht (List.mem_append_right _ h)
  rw [after_recordStatement, run_recordStatement,
    propagates_append (tryFailed_not_recorded _ statement)]
  exact ⟨propagates, fun what hw => policy what (by simpa using hw)⟩

section Trees

set_option linter.unusedSectionVars false

variable (f) (host : Host) {leaves : Leaves}
  (hb : ∀ e, (leaves.condition e).Meets silent) (hl : ∀ statement, Does f (leaves.simple statement))
  (hc : ∀ e, (leaves.condition e).Meets flagged)
  (hs : ∀ statement, (leaves.simple statement).Meets flagged)
include hb hl hc hs

mutual

/-- **A statement propagates the errors that are met in it if and only if it absorbs them.** -/
theorem evalStatement_judged : ∀ statement,
    Judged f (evalStatement host leaves statement) (absorbedStatement host leaves statement)
  | .ifBlock ⟨⟨condition, statements⟩, elifBlocks, elseBlock⟩ => by
    rw [evalStatement, absorbedStatement]
    refine .record (.branch (hc _) (evalStatements_does f host hb hl _)
      (evalStatements_judged statements) (evalElifBlocks_judged elifBlocks ?_) (fun s => ?_) rfl) _
    · cases elseBlock with
      | nil => simpa using Judged.pure
      | cons statement elseBlock =>
        simpa using (evalStatements_judged (statement :: elseBlock)).scope ScopeType.local_ne_function
          (evalStatements_does f host hb hl _)
    · by_cases hs : s.current.policy = .stay
      · exact run_ifStay_of_stay hs
      · exact run_ifStay_of_ne hs
  | .repeatBlock ⟨statements⟩ => by
    rw [evalStatement, absorbedStatement]
    exact .record (.rounds (evalStatements_does f host hb hl _) (evalStatements_judged statements) _) _
  | .importStatement _ | .variableDeclaration _ _ _ | .assignment _ _ | .delay _
  | .returnStatement _ | .raise _ | .breakStatement | .expression _ | .workflowDefinition _ => by
    rw [evalStatement, absorbedStatement]
    · exact .simple (hs _) _
    all_goals simp

theorem evalStatements_judged : ∀ statements,
    Judged f (evalStatements host leaves statements) (absorbedStatements host leaves statements)
  | [] => by
    rw [evalStatements, absorbedStatements]
    exact .pure
  | statement :: statements => by
    rw [evalStatements, absorbedStatements]
    exact .sequence (evalStatement_does f host hb hl _) (evalStatement_judged statement)
      (evalStatements_judged statements)

theorem evalElifBlocks_judged : ∀ (blocks : List (ConditionBlock WorkflowStatement))
    {otherwise : Eval Unit} {absorbed : State → Prop}, Judged f otherwise absorbed →
    Judged f (evalElifBlocks host leaves blocks otherwise)
      (absorbedElifs host leaves blocks absorbed)
  | [], _, _, ho => by
    rw [evalElifBlocks, absorbedElifs]
    exact ho
  | ⟨condition, statements⟩ :: blocks, _, _, ho => by
    rw [evalElifBlocks, absorbedElifs]
    exact .branch (hc _) (evalStatements_does f host hb hl _) (evalStatements_judged statements)
      (evalElifBlocks_judged blocks ho) (fun _ => rfl) rfl

end

end Trees

end Rules

/-! ## Invocations -/

end EzCpp.Flow
