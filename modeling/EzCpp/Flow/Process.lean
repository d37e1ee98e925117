import EzCpp.Flow.Copy

/-!
# The interpreters of a process

The interpreters of a process share its heap, and with it the default values of the types. Their
evaluations take turns, so that a history is any sequence of their actions, among them those of
`set_instance_id`.

A variable is known by the statement that has declared it: the one that was executed last in the
function that the interpreter is in.
-/

namespace EzCpp.Flow

open EzCpp.Lib Ast

/-- The interpreters of a process. The heap of each of them stands for the one of the process. -/
structure Process where
  heap : Heap
  interpreters : Nat → State
  /-- the statement that an interpreter has executed last in a function, which its cell stands for -/
  executed : Nat → Nat → Option WorkflowStatement
  /-- the statement that has declared a variable of an interpreter -/
  declaration : Nat → Variable → Option WorkflowStatement

def Action.isAssign : Action → Bool
  | .assign _ _ _ => true
  | _ => false

namespace Process

structure Event where
  interpreter : Nat
  action : Action

/-- A process that has not evaluated anything, whose interpreters will be woken in these ways. -/
def initial (schedule : Nat → List Wake) : Process where
  heap := .initial
  interpreters i := .constructed .initial (schedule i)
  executed _ _ := none
  declaration _ _ := none

variable (p : Process)

/-- The state the evaluation of an interpreter sees. -/
def view (i : Nat) : State := { p.interpreters i with heap := p.heap }

/-- The statement an interpreter has executed last in the function it is in. -/
def executing (i : Nat) : Option WorkflowStatement :=
  p.executed i (p.interpreters i).current.returnValue

def step (event : Event) : Process :=
  let i := event.interpreter
  let s := (p.view i).apply event.action
  let q := { p with heap := s.heap, interpreters := Function.update p.interpreters i s }
  match event.action with
  | .execute owner statement =>
    let executed := Function.update (p.executed i) owner (some statement)
    { q with executed := Function.update p.executed i executed }
  | .declare name _ =>
    let x := ⟨(p.interpreters i).current.id, name⟩
    let declaration := Function.update (p.declaration i) x (p.executing i)
    { q with declaration := Function.update p.declaration i declaration }
  | _ => q

def run (events : List Event) : Process := events.foldl step p

/-- What a variable holds. -/
def value? (i : Nat) (x : Variable) : Option Entity :=
  ((p.interpreters i).scopes.find? fun scope => scope.id = x.scope).bind fun scope =>
    scope.findEntity x.name

end Process

/-- `x : T` -/
def uninitialised (x T : Identifier) : WorkflowStatement := .variableDeclaration x T none

/-- The variable was declared without an initialiser. -/
def Process.Uninitialised (p : Process) (i : Nat) (x : Variable) : Prop :=
  ∃ T, p.declaration i x = some (uninitialised x.name T)

/-! ## What a step does -/

namespace Process

variable {p : Process} {schedule : Nat → List Wake} {es : List Event} {event : Event} {i : Nat}

theorem run_concat (p : Process) (es : List Event) (event : Event) :
    p.run (es ++ [event]) = (p.run es).step event :=
  List.foldl_concat ..

theorem step_heap (p : Process) (event : Event) :
    (p.step event).heap = ((p.view event.interpreter).apply event.action).heap := by
  unfold step
  cases event.action <;> rfl

theorem step_interpreters (p : Process) (event : Event) : (p.step event).interpreters =
    Function.update p.interpreters event.interpreter
      ((p.view event.interpreter).apply event.action) := by
  unfold step
  cases event.action <;> rfl

/-- What an assignment does to the variables: all hold what they held. -/
theorem value?_assign (p : Process) (i : Nat) (z : Option Variable) (lhs rhs : Entity) (j : Nat)
    (x : Variable) : (p.step ⟨i, .assign z lhs rhs⟩).value? j x = p.value? j x := by
  simp only [value?, step_interpreters]
  by_cases hi : j = i
  · rw [hi, Function.update_self]
    rfl
  · rw [Function.update_of_ne hi]

/-- An interpreter that has done nothing is as it was. -/
theorem view_run_of_not_mem (hi : ∀ event ∈ es, event.interpreter ≠ i) :
    ((initial schedule).run es).view i =
      .constructed ((initial schedule).run es).heap (schedule i) := by
  have same : ((initial schedule).run es).interpreters i = .constructed .initial (schedule i) := by
    induction es using List.reverseRecOn with
    | nil => rfl
    | append_singleton es event ih =>
      rw [run_concat, step_interpreters,
        Function.update_of_ne (hi event (List.mem_append_right _ List.mem_cons_self)).symm]
      exact ih fun event he => hi event (List.mem_append_left _ he)
  rw [view, same]
  rfl

theorem exists_interpreter (es : List Event) : ∃ i, ∀ event ∈ es, event.interpreter ≠ i := by
  obtain ⟨i, hi⟩ := Infinite.exists_notMem_finset (es.map Event.interpreter).toFinset
  simp only [List.mem_toFinset, List.mem_map, not_exists, not_and] at hi
  exact ⟨i, hi⟩

theorem next_le_apply (s : State) (a : Action) : s.heap.next ≤ (s.apply a).heap.next := by
  cases a with
  | alloc k c => exact Nat.le_succ _
  | assign _ lhs rhs => exact (sameBut_assign s.heap lhs rhs).next
  | pop =>
    rw [State.apply, s.pop_heap]
  | _ => exact Nat.le_refl _

/-- There is always storage for the default values. -/
theorem next_pos_run (schedule : Nat → List Wake) (es : List Event) :
    0 < ((initial schedule).run es).heap.next := by
  induction es using List.reverseRecOn with
  | nil => exact Nat.one_pos
  | append_singleton es event ih =>
    rw [run_concat, step_heap]
    exact ih.trans_le (next_le_apply (((initial schedule).run es).view event.interpreter) event.action)

/-! ## What is recorded -/

/-- The actions of a declaration without initialiser. -/
theorem log_uninitialised (host : Host) (depth : Nat) {x T : Identifier} {s : State}
    (hok : (runStatement host depth (uninitialised x T) s).exit = .ok ()) :
    ∃ allocs v, (∀ a ∈ allocs, ∃ k c, a = .alloc k c) ∧
      (runStatement host depth (uninitialised x T) s).log =
        .execute s.current.returnValue (uninitialised x T) :: (allocs ++ [.declare x v]) := by
  have notIf (block) : uninitialised x T ≠ .ifBlock block := by simp [uninitialised]
  have notRepeat (block) : uninitialised x T ≠ .repeatBlock block := by simp [uninitialised]
  have run := run_evalStatement host (evalLeaves host (evalInvocations host depth)) notIf notRepeat s
  have simple : (evalLeaves host (evalInvocations host depth)).simple (uninitialised x T) =
    evalVariableDeclaration host x T (pure .void) := rfl
  rw [simple] at run
  rw [runStatement, run] at hok ⊢
  rw [evalVariableDeclaration] at hok ⊢
  obtain ⟨⟨⟩, hu, hrest⟩ := Coroutine.of_bind_ok hok
  have quiet : checkUndeclared x s = ⟨.ok (), []⟩ := by
    have hlog : (checkUndeclared x s).log = [] := by
      rw [checkUndeclared, Eval.gets, Coroutine.gets_bind]
      split <;> rfl
    exact congrArg₂ Run.mk hu hlog
  rw [Coroutine.after, quiet, List.foldl_nil, Eval.gets, Coroutine.gets_bind] at hrest
  rw [Coroutine.bind_quiet quiet, Eval.gets, Coroutine.gets_bind]
  cases hf : s.findType T with
  | none =>
    rw [hf] at hrest
    cases hrest
  | some type =>
    rw [hf] at hrest
    obtain ⟨_, ⟨⟩, hrest⟩ := Coroutine.of_bind_ok hrest
    obtain ⟨v, hv, -⟩ := Coroutine.of_bind_ok hrest
    rw [show (pure Entity.void : Eval Entity).after s = s from rfl] at hv
    have allocs : ∀ a ∈ (constructCopy host type .void s).log, ∃ k c, a = .alloc k c := by
      cases type with
      | dictionary k => exact fun a ha => ⟨_, _, List.mem_singleton.mp ha⟩
      | _ => exact fun a ha => absurd ha List.not_mem_nil
    refine ⟨_, v, allocs, ?_⟩
    change _ :: ((constructCopy host type .void >>= fun v => Eval.perform (.declare x v)) s).log = _
    rw [Coroutine.bind_ok hv]
    rfl

/-- A declaration is recorded for its variable. -/
theorem uninitialised_of_runStatement (host : Host) (depth : Nat) (p : Process) (i : Nat)
    {x T : Identifier} (hok : (runStatement host depth (uninitialised x T) (p.view i)).exit = .ok ()) :
    (p.run ((runStatement host depth (uninitialised x T) (p.view i)).log.map (Event.mk i))).Uninitialised i
      ⟨(p.interpreters i).current.id, x⟩ := by
  obtain ⟨allocs, v, hallocs, hlog⟩ := log_uninitialised host depth hok
  let statement := uninitialised x T
  let q := p.step ⟨i, .execute (p.interpreters i).current.returnValue statement⟩
  -- what is allocated changes nothing about where the interpreter is
  have at_declaration (l : List Action) (hl : ∀ a ∈ l, ∃ k c, a = .alloc k c) :
      let r := q.run (l.map (Event.mk i))
      (r.interpreters i).current = (p.interpreters i).current ∧ r.executing i = some statement := by
    induction l using List.reverseRecOn with
    | nil => simp [q, run, step, executing, view, State.apply]
    | append_singleton l a ih =>
      obtain ⟨k, c, rfl⟩ := hl a (List.mem_append_right l List.mem_cons_self)
      obtain ⟨hcurrent, hexecuting⟩ := ih fun a ha => hl a (List.mem_append_left _ ha)
      simp only [List.map_append, List.map_singleton, run_concat]
      simpa [step, executing, view, State.apply] using ⟨hcurrent, hexecuting⟩
  obtain ⟨hcurrent, hexecuting⟩ := at_declaration allocs hallocs
  rw [hlog, List.map_cons, List.map_append, List.map_singleton]
  change (q.run (allocs.map (Event.mk i) ++ [⟨i, .declare x v⟩])).Uninitialised i _
  refine ⟨T, ?_⟩
  rw [run_concat]
  simp only [step, hcurrent, Function.update_self, hexecuting]
  rfl

end Process

end EzCpp.Flow
