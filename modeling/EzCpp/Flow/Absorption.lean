import EzCpp.Flow.Try

/-!
# Where an error is absorbed

What becomes of a `try` that stands alone and meets an error. The error is absorbed in an expression
statement and in an assignment; in a declaration if the type is one of dictionaries, whose
constructors hand errors on; and not as a condition or on the left of an operator. A return and a raise
put what is left of the error in its place, which is the error itself only if that has no text.
-/

namespace EzCpp.Flow

open EzCpp.Lib Ast

/-- `try e`, as an expression of its own -/
def Ast.Expression.tried (e : Expression) : Expression :=
  (PrimaryExpression.tryExpression e).toExpression

section Positions

set_option linter.unusedSectionVars false

variable {α : Type} {host : Host} {invoke : WorkflowInvocation → Eval Entity}
  (hi : ∀ invocation, (awaitWorkflow invoke invocation).Meets flagged) {e : Expression} {s : State}
  {what : String} (he : (evalExpression host invoke e s).exit = .ok (.error what))
  (ht : .timeout ∉ (evalExpression host invoke e s).log)
  (hn : ∀ w, tryFailed s.current.returnValue w ∉ (evalExpression host invoke e s).log)
include hi he ht

/-- The return value is the error by then, and the value of the `try` is what is left of it. -/
theorem run_tried : evalExpression host invoke e.tried s =
    ⟨.ok (.error ""), (evalExpression host invoke e s).log ++
      [tryFailed s.current.returnValue what]⟩ := by
  have flags := ((evalExpression_meets flagged_admits.admits host hi e).returns he).resolve_left ht
  have cell : ((evalExpression host invoke e).after s).current.returnValue =
    s.current.returnValue := flags.2.frame.returnValue
  rw [Expression.tried, evalExpression_primary, evalPrimary, Coroutine.bind_ok he, ← cell]
  rfl

include hn

/-- What is done with what is left must come to its end and leave the return value alone. -/
theorem absorbs_tried_iff {next : Entity → Eval α} {t : State}
    (hs : t = (evalExpression host invoke e.tried).after s)
    (hk : ∀ w, tryFailed s.current.returnValue w ∉ (next (.error "") t).log) :
    Absorbs (evalExpression host invoke e.tried >>= next) s ↔
      (∃ a, (next (.error "") t).exit = .ok a) ∧
      ((next (.error "")).after t).returns s.current.returnValue = some (.error what) := by
  have run := run_tried hi he ht
  have exit : (evalExpression host invoke e.tried s).exit = .ok (.error "") := by rw [run]
  have after : (evalExpression host invoke e.tried >>= next).after s =
      (next (.error "")).after t := by rw [Coroutine.after_bind_ok exit, hs]
  simp only [Absorbs, after]
  rw [Coroutine.bind_ok exit, ← hs, run]
  constructor
  · intro h
    exact h what (List.mem_append_left _ (List.mem_append_right _ (List.mem_singleton_self _)))
  · intro h w hw
    rcases List.mem_append.1 hw with hw | hw
    · rcases List.mem_append.1 hw with hw | hw
      · exact absurd hw (hn w)
      · cases List.mem_singleton.1 hw
        exact h
    · exact absurd hw (hk w)

omit hn in
theorem after_tried : (evalExpression host invoke e.tried).after s =
    ((evalExpression host invoke e).after s).returnValue (.error what) := by
  rw [Coroutine.after, run_tried hi he ht, List.foldl_append]
  rfl

omit hn in
/-- The cell of the function, once the `try` has been evaluated. -/
theorem returns_tried :
    ((evalExpression host invoke e.tried).after s).current.returnValue = s.current.returnValue ∧
    ((evalExpression host invoke e.tried).after s).returns s.current.returnValue =
      some (.error what) := by
  have flags := ((evalExpression_meets flagged_admits.admits host hi e).returns he).resolve_left ht
  have cell : ((evalExpression host invoke e).after s).current.returnValue =
    s.current.returnValue := flags.2.frame.returnValue
  rw [after_tried hi he ht, ← cell]
  exact ⟨rfl, Function.update_self _ _ _⟩

/-- As an expression statement the error is absorbed. -/
theorem absorbs_expression : Absorbs (evalSimple host invoke (.expression e.tried)) s := by
  obtain ⟨-, cell⟩ := returns_tried hi he ht
  exact (absorbs_tried_iff hi he ht hn rfl fun _ => List.not_mem_nil).mpr ⟨⟨(), rfl⟩, cell⟩

/-- Where what is left of the error becomes the return value, the error is lost with its text. -/
theorem absorbs_return_iff :
    (Absorbs (evalSimple host invoke (.returnStatement e.tried)) s ↔ what = "") ∧
      (Absorbs (evalSimple host invoke (.raise e.tried)) s ↔ what = "") := by
  obtain ⟨current, -⟩ := returns_tried hi he ht
  have again : ∀ origin, origin ≠ .tryExpression → ∀ w, tryFailed s.current.returnValue w ∉
      (setReturnValue (.error "") origin ((evalExpression host invoke e.tried).after s)).log := by
    intro origin ho w hw
    have same := List.mem_singleton.1 hw
    simp only [Action.returnValue.injEq] at same
    exact ho same.2.2.symm
  have set : ∀ origin, ((setReturnValue (.error "") origin).after
      ((evalExpression host invoke e.tried).after s)).returns s.current.returnValue =
        some (.error "") := by
    intro origin
    rw [← current]
    exact Function.update_self _ _ _
  have kept : ∀ origin, ((∃ a, (setReturnValue (.error "") origin
      ((evalExpression host invoke e.tried).after s)).exit = .ok a) ∧
      ((setReturnValue (.error "") origin).after
        ((evalExpression host invoke e.tried).after s)).returns s.current.returnValue =
          some (.error what)) ↔ what = "" := by
    intro origin
    rw [set origin, Option.some.injEq, Entity.error.injEq]
    exact ⟨fun h => h.2.symm, fun h => ⟨⟨(), rfl⟩, h.symm⟩⟩
  exact ⟨(absorbs_tried_iff hi he ht hn rfl (again .returnStatement nofun)).trans (kept .returnStatement),
    (absorbs_tried_iff hi he ht hn rfl (again .raise nofun)).trans (kept .raise)⟩

/-- So it is on the right-hand side of an assignment to what there is. -/
theorem absorbs_assignment {path : IdentifierPath} {lhs : Entity}
    (hl : evalIdentifierPath path s = ⟨.ok lhs, []⟩) :
    Absorbs (evalSimple host invoke (.assignment path e.tried)) s := by
  obtain ⟨-, cell⟩ := returns_tried hi he ht
  have same : evalSimple host invoke (.assignment path e.tried) s =
      (evalExpression host invoke e.tried >>= fun value =>
        assign (s.variableOf path.front) lhs value >>= fun _ => (pure () : Eval Unit)) s := by
    rw [evalSimple, evalAssignment, Coroutine.bind_quiet hl, Eval.gets, Coroutine.gets_bind]
  have assigned : (assign (s.variableOf path.front) lhs (.error "") >>= fun _ => (pure () : Eval Unit))
      ((evalExpression host invoke e.tried).after s) =
        ⟨.ok (), [.assign (s.variableOf path.front) lhs (.error "")]⟩ := rfl
  rw [absorbs_congr same]
  refine (absorbs_tried_iff hi he ht hn rfl fun w hw => ?_).mpr ⟨⟨(), by rw [assigned]⟩, ?_⟩
  · rw [assigned] at hw
    cases List.mem_singleton.1 hw
  · rw [Coroutine.after, assigned]
    exact cell

/-- A variable takes the error for its value if it is of a dictionary type, and only then. -/
theorem absorbs_declaration_iff {name typeName : String} {type : FlowType}
    (hu : s.current.findEntity name = none) (hf : s.findType typeName = some type) :
    Absorbs (evalSimple host invoke (.variableDeclaration name typeName (some e.tried))) s ↔
      ∃ k, type = .dictionary k := by
  obtain ⟨-, cell⟩ := returns_tried hi he ht
  have same : evalSimple host invoke (.variableDeclaration name typeName (some e.tried)) s =
      (evalExpression host invoke e.tried >>= fun value =>
        constructCopy host type value >>= fun value => Eval.perform (.declare name value)) s := by
    have undeclared : checkUndeclared name s = ⟨.ok (), []⟩ := by
      rw [checkUndeclared, Eval.gets, Coroutine.gets_bind, hu]
      rfl
    rw [evalSimple, evalVariableDeclaration, Coroutine.bind_quiet undeclared, Eval.gets,
      Coroutine.gets_bind, hf]
    rfl
  have built : ∀ k, constructCopy host (.dictionary k) (.error "") = pure (.error "") :=
    fun _ => rfl
  have broken : (¬ ∃ k, type = .dictionary k) → ∃ x, constructCopy host type (.error "") =
      Eval.throw x := by
    intro h
    cases type with
    | dictionary k => exact absurd ⟨k, rfl⟩ h
    | _ => exact ⟨_, rfl⟩
  rw [absorbs_congr same]
  by_cases h : ∃ k, type = .dictionary k
  · refine iff_of_true ?_ h
    obtain ⟨k, rfl⟩ := h
    refine (absorbs_tried_iff hi he ht hn rfl fun w hw => ?_).mpr ⟨⟨(), by rw [built k]; rfl⟩, ?_⟩
    · rw [built k] at hw
      cases List.mem_singleton.1 hw
    · rw [built k]
      exact cell
  · obtain ⟨x, hx⟩ := broken h
    refine iff_of_false (fun absorbed => ?_) h
    have none : ∀ w, tryFailed s.current.returnValue w ∉ ((constructCopy host type (.error "") >>=
        fun value => Eval.perform (.declare name value))
          ((evalExpression host invoke e.tried).after s)).log := by
      rw [hx]
      exact fun _ => List.not_mem_nil
    obtain ⟨⟨a, ha⟩, -⟩ := (absorbs_tried_iff hi he ht hn rfl none).mp absorbed
    rw [hx] at ha
    cases ha

/-- A condition that is a `try` is not converted. -/
theorem not_absorbs_condition : ¬ Absorbs (evalBoolean host invoke e.tried) s := by
  intro h
  obtain ⟨⟨a, ha⟩, -⟩ := (absorbs_tried_iff hi he ht hn rfl fun _ => List.not_mem_nil).mp h
  cases ha

/-- No operator has an error on its left, whatever there is on its right. -/
theorem not_absorbs_operand {op : BinaryOp} {rhs : Eval Entity}
    (hr : ∀ w t, tryFailed s.current.returnValue w ∉ (rhs t).log) :
    ¬ Absorbs (evalExpression host invoke e.tried >>= fun lhs => rhs >>= evalBinaryOp op lhs) s := by
  intro h
  have broken : ∀ rhs t, ∃ x, evalBinaryOp op (.error "") rhs t = ⟨.throw x, []⟩ :=
    fun _ _ => ⟨_, rfl⟩
  have none : ∀ w, tryFailed s.current.returnValue w ∉ ((rhs >>= evalBinaryOp op (.error ""))
      ((evalExpression host invoke e.tried).after s)).log := by
    intro w hw
    cases hv : (rhs ((evalExpression host invoke e.tried).after s)).exit with
    | ok v =>
      obtain ⟨x, hx⟩ := broken v (rhs.after ((evalExpression host invoke e.tried).after s))
      rw [Coroutine.bind_ok hv, hx, List.append_nil] at hw
      exact hr _ _ hw
    | throw x =>
      rw [Coroutine.bind_throw hv] at hw
      exact hr _ _ hw
    | cut n =>
      rw [Coroutine.bind_cut hv] at hw
      exact hr _ _ hw
  obtain ⟨⟨a, ha⟩, -⟩ := (absorbs_tried_iff hi he ht hn rfl none).mp h
  obtain ⟨v, -, hv⟩ := Coroutine.of_bind_ok ha
  obtain ⟨x, hx⟩ := broken v (rhs.after ((evalExpression host invoke e.tried).after s))
  rw [hx] at hv
  cases hv

end Positions

end EzCpp.Flow
