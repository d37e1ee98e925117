import EzCpp.Flow.Sharing

/-!
# Assignments

`entity::assign` works on the entity the path was evaluated to, which is a copy of the variable's.
An integer or an array is overwritten in its storage, so that the variable sees it
(`Entity.overwritten`). The default assignment puts the new entity in the place of the copy, and the
variable keeps what it has; that an assignment fails is not looked at either.
-/

namespace EzCpp.Flow

open EzCpp.Lib Ast

/-- What the `Assignment` of a type accepts. -/
def Assignable (type : FlowType) (value : FlowType) : Prop :=
  match type with
  | .integer => value = .integer ∨ value = .real
  | .array => value = .array
  | type => value = type ∨ value = .error

/-- A real is converted to an integer by the assignment. -/
def assigned (type : FlowType) (x : Value) : Value :=
  match type, x with
  | .integer, .node (.real r) _ => .node (.integer r.toInt64) []
  | _, x => x

/-- What an assignment through `path` is to do, when `path` has a value of this type, and the
expression the value `x` of the entity `v`. -/
structure AssignmentLaw (path : IdentifierPath) (type : FlowType) (v : Entity) (x : Value)
    (statement : Eval Unit) (s : State) : Prop where
  accepted : Assignable type v.type →
    (statement s).exit = .ok () ∧ (statement.after s).Reads path (assigned type x)
  refused : ¬ Assignable type v.type → (∃ what, (statement s).exit = .throw (.evaluation what)) ∧
    ∀ y, (statement.after s).Reads path y ↔ s.Reads path y

/-- In the state `s`, in which `entity::assign` is called: the value has the right type, and either
the path leads to storage that is overwritten and not part of the value, or what it leads to has the
value already and is not overwritten. -/
def AssignmentSticks (s : State) (path : IdentifierPath) (lhs v : Entity) (x : Value) : Prop :=
  Assignable lhs.type v.type ∧
    ((∃ st, lhs.overwritten = some st ∧ s.resolve path = some lhs ∧
        ∀ y ∈ s.heap.children v, ¬ s.heap.Contains y st) ∨
      ∃ e, s.resolve path = some e ∧ s.heap.HasValue e (assigned lhs.type x) ∧
        ∀ st, lhs.overwritten = some st → ¬ s.heap.Contains e st)

/-! ## The heap after an assignment -/

theorem resolveProperties_write (h : Heap) {k : Kind} (hk : k ≠ .dictionary) (a : Nat)
    (c : k.Content) (e : Entity) (names : List Identifier) :
    resolveProperties (h.write k a c) e names = resolveProperties h e names :=
  resolveProperties_congr
    (fun _ => h.write_cell_of_ne c fun he => hk (Storage.mk.inj he).1.symm) e names

section Heap

variable {h : Heap} {lhs v : Entity}

/-- The new content of storage that is overwritten. -/
theorem afterAssign_overwritten {st : Storage} {x : Value} (hw : lhs.overwritten = some st)
    (ha : Assignable lhs.type v.type) (hx : h.HasValue v x) :
    ∃ k a c, k ≠ .dictionary ∧ st = ⟨k, a⟩ ∧ h.afterAssign lhs v = h.write k a c ∧
      (h.write k a c).children lhs = h.children v ∧
      ∃ ts, assigned lhs.type x = .node ((h.write k a c).label lhs) ts ∧
        h.graph.UnfoldsAll (h.children v) ts := by
  obtain ⟨hs⟩ := hx
  cases lhs with
  | integer a =>
    cases hw
    cases v with
    | integer b =>
      cases hs
      exact ⟨.integer, a, _, by decide, rfl, rfl, rfl, [], by simp [Heap.label]; rfl, .nil⟩
    | real b =>
      cases hs
      exact ⟨.integer, a, _, by decide, rfl, rfl, rfl, [], by simp [Heap.label]; rfl, .nil⟩
    | _ => rcases ha with ha | ha <;> cases ha
  | array a =>
    cases hw
    cases v with
    | array b =>
      exact ⟨.array, a, _, by decide, rfl, rfl, by simp [Heap.children], _, rfl, hs⟩
    | _ => cases ha
  | _ => cases hw

end Heap

section Statement

variable (host : Host) (depth : Nat) {s : State} {path : IdentifierPath} {e : Expression}
  {lhs v : Entity}

/-- An assignment never fails, once both sides have been evaluated. -/
theorem run_assignment (hl : s.resolve path = some lhs)
    (he : (runExpression host depth e s).exit = .ok v) :
    (runStatement host depth (.assignment path e) s).exit = .ok () ∧
      (runStatement host depth (.assignment path e)).after s =
        ((runExpression host depth e).after s).apply (.assign (s.variableOf path.front) lhs v) := by
  have run : runStatement host depth (.assignment path e) s = ⟨.ok (),
      .execute s.current.returnValue (.assignment path e) ::
        ((runExpression host depth e s).log ++ [.assign (s.variableOf path.front) lhs v])⟩ := by
    have path_run := evalIdentifierPath_of_resolve hl
    have rest : evalAssignment path (runExpression host depth e) s =
        ⟨.ok (), (runExpression host depth e s).log ++ [.assign (s.variableOf path.front) lhs v]⟩ := by
      rw [evalAssignment, Coroutine.bind_ok (by rw [path_run]), Coroutine.after, path_run]
      simp only [List.foldl_nil, List.nil_append]
      rw [Eval.gets, Coroutine.gets_bind, Coroutine.bind_ok he]
      rfl
    rw [runStatement, run_evalStatement _ _ (by simp) (by simp)]
    exact congrArg (fun r : Run Action Exception Unit => Run.mk r.exit (_ :: r.log)) rest
  rw [Coroutine.after, run]
  simp only [List.foldl_cons, List.foldl_append, List.foldl_nil]
  exact ⟨trivial, rfl⟩

/-- **The assignment law holds if, and only if, the assignment sticks.** -/
theorem assignment_law_iff (host : Host) (depth : Nat) (s : State) (path : IdentifierPath)
    (e : Expression) (lhs v : Entity) (x : Value) (hl : s.resolve path = some lhs)
    (hst : lhs.storage.isSome) (he : (runExpression host depth e s).exit = .ok v)
    (hx : ((runExpression host depth e).after s).heap.HasValue v x) :
    AssignmentLaw path lhs.type v x (runStatement host depth (.assignment path e)) s ↔
      AssignmentSticks ((runExpression host depth e).after s) path lhs v x := by
  obtain ⟨hexit, hafter⟩ := run_assignment host depth hl he
  obtain ⟨root, -, hp⟩ := Option.bind_eq_some_iff.1 hl
  have names := resolveProperties_names hp
  generalize (runExpression host depth e).after s = t at hx hafter ⊢
  generalize s.variableOf path.front = z at hafter
  -- the statement returns in any case
  have law : AssignmentLaw path lhs.type v x (runStatement host depth (.assignment path e)) s ↔
      Assignable lhs.type v.type ∧ (t.apply (.assign z lhs v)).Reads path (assigned lhs.type x) := by
    constructor
    · intro h
      by_cases ha : Assignable lhs.type v.type
      · exact ⟨ha, hafter ▸ (h.accepted ha).2⟩
      · obtain ⟨what, hw⟩ := (h.refused ha).1
        cases hexit.symm.trans hw
    · rintro ⟨ha, hr⟩
      exact ⟨fun _ => ⟨hexit, hafter ▸ hr⟩, fun hn => absurd ha hn⟩
  rw [law, AssignmentSticks, and_congr_right_iff]
  intro ha
  rw [reads_iff names]
  cases hw : lhs.overwritten with
  | none =>
    have same : t.apply (.assign z lhs v) = t := by
      rw [State.apply, afterAssign_default hw]
    simp [same]
  | some st =>
    obtain ⟨k, a, c, hk, rfl, hwrite, hchildren, ts, hassigned, hall⟩ :=
      afterAssign_overwritten hw ha hx
    have heap : (t.apply (.assign z lhs v)).heap = t.heap.write k a c := hwrite
    have resolve : (t.apply (.assign z lhs v)).resolve path = t.resolve path := by
      simp only [State.resolve, heap, resolveProperties_write _ hk]
      rfl
    have agree : LabelledGraph.AgreeOff (· = lhs) t.heap.graph (t.heap.write k a c).graph :=
      agree_write hw c
    have update : ∀ e, (t.heap.write k a c).HasValue e (assigned lhs.type x) ↔
        e = lhs ∧ (∀ y ∈ t.heap.children v, ¬ t.heap.Contains y ⟨k, a⟩) ∨
        ¬ t.heap.Contains e ⟨k, a⟩ ∧ t.heap.HasValue e (assigned lhs.type x) := by
      intro e
      have hall' : t.heap.graph.UnfoldsAll ((t.heap.write k a c).graph.children lhs) ts :=
        (congrArg (fun es => t.heap.graph.UnfoldsAll es ts) hchildren).mpr hall
      have := LabelledGraph.unfolds_update_iff (e := e) agree hall'
      simp only [hassigned, contains_iff hw]
      rwa [show (t.heap.write k a c).graph.children lhs = t.heap.children v from hchildren] at this
    rw [resolve, heap]
    simp only [update, Option.some.injEq, exists_eq_left', forall_eq']
    constructor
    · rintro ⟨e, hr, ⟨rfl, hn⟩ | ⟨hn, hv⟩⟩
      · exact .inl ⟨hr, hn⟩
      · exact .inr ⟨e, hr, hv, hn⟩
    · rintro (⟨hr, hn⟩ | ⟨e, hr, hv, hn⟩)
      · exact ⟨lhs, hr, .inl ⟨rfl, hn⟩⟩
      · exact ⟨e, hr, .inr ⟨hn, hv⟩⟩

end Statement

/-- An interpreter with one variable. -/
def variableState (name : String) (value : Entity) : State := (State.fresh []).declare name value

theorem integer_assignment :
    AssignmentLaw ⟨"x", []⟩ .integer (.integer 2) (.node (.integer 5) [])
        (runStatement .plain 0 (.assignment ⟨"x", []⟩ (Literal.integer 5).toExpression))
        (variableState "x" (.integer 0)) ↔
      AssignmentSticks ((runExpression .plain 0 (Literal.integer 5).toExpression).after
        (variableState "x" (.integer 0))) ⟨"x", []⟩ (.integer 0) (.integer 2)
        (.node (.integer 5) []) :=
  assignment_law_iff .plain 0 (variableState "x" (.integer 0)) ⟨"x", []⟩ (Literal.integer 5).toExpression
    (.integer 0) (.integer 2) (.node (.integer 5) []) rfl rfl rfl (.node .nil)

/-- `x = true` leaves a boolean `x` as it was. -/
theorem boolean_assignment_lost :
    ¬ ∀ host depth s path e lhs v x, s.resolve path = some lhs → lhs.storage.isSome →
      (runExpression host depth e s).exit = .ok v →
      ((runExpression host depth e).after s).heap.HasValue v x →
      AssignmentLaw path lhs.type v x (runStatement host depth (.assignment path e)) s := by
  intro h
  have law := h .plain 0 (variableState "x" (.boolean 0)) ⟨"x", []⟩ (Literal.boolean true).toExpression
    (.boolean 0) (.boolean 2) (.node (.boolean true) []) rfl rfl rfl (.node .nil)
  obtain ⟨-, w, hw, hv⟩ := law.accepted (.inl rfl)
  have hw : w = .boolean 0 := Exit.ok.inj hw.symm
  subst hw
  have label : Label.boolean true = .boolean false := hv.label
  cases label

end EzCpp.Flow
