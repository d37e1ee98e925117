import EzCpp.Flow.Contracts
import EzCpp.Lib.Unfold

/-!
# Values

The value of an entity is the tree its storage unfolds to. An entity that contains itself has none.
The arguments of a workflow invocation belong to its value; other functions and workflows stand for
themselves.

A path is read (`State.Reads`) by evaluating it. Where each of its properties is an entry of a
dictionary, the evaluation does nothing but look it up (`State.resolve`).
-/

namespace EzCpp.Flow

open EzCpp.Lib Ast

/-- What an entity is, but for the entities in it. -/
inductive Label
  | error (what : String)
  | void
  | boolean (b : Bool)
  | integer (i : Int64)
  | real (r : Float)
  | string (s : String)
  | duration (d : Duration)
  | timePoint (value : Int)
  | array
  | dictionary (k : DictionaryKind) (keys : List String)
  | memberFunction (typeName name : String)
  | freeFunction (f : Builtin)
  | workflowDefinition (w : WorkflowDefinition)
  | workflowInvocation (w : WorkflowDefinition) (instanciation : Instanciation)
      (names : List (Option String))

abbrev Value := LabelledTree Label

namespace Heap

def label (h : Heap) : Entity → Label
  | .error what => .error what
  | .void => .void
  | .boolean a => .boolean (h.cell .boolean a)
  | .integer a => .integer (h.cell .integer a)
  | .real a => .real (h.cell .real a)
  | .string a => .string (h.cell .string a)
  | .duration a => .duration (h.cell .duration a)
  | .timePoint value => .timePoint value
  | .array _ => .array
  | .dictionary k a => .dictionary k ((h.cell .dictionary a).entries.map Prod.fst)
  | .memberFunction t n => .memberFunction t n
  | .freeFunction f => .freeFunction f
  | .workflowDefinition w => .workflowDefinition w
  | .workflowInvocation w i args => .workflowInvocation w i (args.map Prod.fst)

def children (h : Heap) : Entity → List Entity
  | .array a => h.cell .array a
  | .dictionary _ a => (h.cell .dictionary a).entries.map Prod.snd
  | .workflowInvocation _ _ args => args.map Prod.snd
  | _ => []

def graph (h : Heap) : LabelledGraph Entity Label := ⟨h.label, h.children⟩

/-- The value of an entity. -/
def HasValue (h : Heap) (e : Entity) (x : Value) : Prop := h.graph.Unfolds e x

theorem HasValue.label {h : Heap} {e : Entity} {x : Value} (hx : h.HasValue e x) :
    x.label = h.label e := by
  cases hx
  rfl

/-- The storage is part of the entity. -/
def Contains (h : Heap) (e : Entity) (st : Storage) : Prop :=
  h.graph.Reaches (fun x => x.storage = some st) e

theorem graph_write (h : Heap) (k : Kind) (a : Nat) (c : k.Content) :
    LabelledGraph.AgreeOff (fun x => x.storage = some ⟨k, a⟩) h.graph (h.write k a c).graph := by
  have cell : ∀ k' a', (⟨k', a'⟩ : Storage) ≠ ⟨k, a⟩ → (h.write k a c).cell k' a' = h.cell k' a' :=
    fun k' a' hne => h.write_cell_of_ne c hne
  constructor
  · intro e he
    cases e <;> simp only [graph, label]
    all_goals rw [cell _ _ fun hst => he (congrArg some hst)]
  · intro e he
    cases e <;> simp only [graph, children]
    all_goals rw [cell _ _ fun hst => he (congrArg some hst)]

/-- **The frame rule of a write.** -/
theorem hasValue_write {h : Heap} {k : Kind} {a : Nat} (c : k.Content) {e : Entity} {x : Value}
    (hn : ¬ h.Contains e ⟨k, a⟩) : (h.write k a c).HasValue e x ↔ h.HasValue e x :=
  LabelledGraph.unfolds_iff_of_not_reaches (h.graph_write k a c) hn

end Heap

/-! ## Paths -/

/-- The properties of a type come before the entries of a dictionary. -/
def resolveProperties (h : Heap) (e : Entity) : List Identifier → Option Entity
  | [] => some e
  | name :: names =>
    match e with
    | .dictionary _ a =>
      if name = "size" ∨ name = "insert" then none
      else ((h.cell .dictionary a).find? name).bind fun e => resolveProperties h e names
    | _ => none

/-- The variable or the entry of nested dictionaries that a path names. -/
def State.resolve (s : State) (path : IdentifierPath) : Option Entity :=
  (s.findEntity path.front).bind fun e => resolveProperties s.heap e path.properties

/-- The path is evaluated to this value. -/
def State.Reads (s : State) (path : IdentifierPath) (x : Value) : Prop :=
  ∃ e, (evalIdentifierPath path s).exit = .ok e ∧
    ((evalIdentifierPath path).after s).heap.HasValue e x

theorem resolveProperties_congr {h h' : Heap}
    (hc : ∀ a, h'.cell .dictionary a = h.cell .dictionary a) (e : Entity) (names : List Identifier) :
    resolveProperties h' e names = resolveProperties h e names := by
  induction names generalizing e with
  | nil => rfl
  | cons name names ih =>
    cases e with
    | dictionary k a => simp only [resolveProperties, hc, ih]
    | _ => rfl

/-- Not a property that types have. -/
def isEntryName (name : Identifier) : Prop := name ≠ "size" ∧ name ≠ "insert"

theorem resolveProperties_cons (h : Heap) (e : Entity) (name : Identifier)
    (names : List Identifier) : resolveProperties h e (name :: names) =
      (resolveProperties h e [name]).bind fun x => resolveProperties h x names := by
  cases e with
  | dictionary k a =>
    simp only [resolveProperties]
    split
    · rfl
    · cases (h.cell .dictionary a).find? name <;> rfl
  | _ => rfl

theorem resolveProperties_names {h : Heap} {e lhs : Entity} {names : List Identifier}
    (hr : resolveProperties h e names = some lhs) : ∀ name ∈ names, isEntryName name := by
  induction names generalizing e with
  | nil => exact nofun
  | cons name names ih =>
    unfold resolveProperties at hr
    split at hr
    · obtain ⟨hn, hr⟩ := Option.ite_none_left_eq_some.1 hr
      obtain ⟨x, -, hr⟩ := Option.bind_eq_some_iff.1 hr
      exact List.forall_mem_cons.2 ⟨not_or.1 hn, ih hr⟩
    · cases hr

section Evaluation

variable {s : State}

theorem run_getProperty_entry {name : Identifier} (hn : isEntryName name) (k : DictionaryKind)
    (a : Nat) (s : State) : getProperty (.dictionary k a) name s =
      ⟨.ok (match (s.heap.cell .dictionary a).find? name with
        | some e => .ok e
        | none => .error ("Property '" ++ name ++ "' not found")), []⟩ := by
  simp only [getProperty, if_neg hn.1, if_neg hn.2]
  rw [Eval.gets, Coroutine.gets_bind]
  cases (s.heap.cell .dictionary a).find? name <;> rfl

/-- A property that is not one of the type is an entry, or there is none. -/
theorem getProperty_entry {e : Entity} {name : Identifier} (hn : isEntryName name) :
    (∃ k a x, e = .dictionary k a ∧ (s.heap.cell .dictionary a).find? name = some x ∧
      getProperty e name s = ⟨.ok (.ok x), []⟩) ∨
    resolveProperties s.heap e [name] = none ∧ ∃ what, getProperty e name s = ⟨.ok (.error what), []⟩ := by
  obtain ⟨hs, hi⟩ := hn
  cases e with
  | dictionary k a =>
    have run := run_getProperty_entry ⟨hs, hi⟩ k a s
    cases hf : (s.heap.cell .dictionary a).find? name with
    | some x => exact .inl ⟨k, a, x, rfl, hf, by rw [run, hf]⟩
    | none =>
      exact .inr ⟨by simp [resolveProperties, hf], _, by rw [run, hf]⟩
  | array a => exact .inr ⟨rfl, _, by simp only [getProperty, if_neg hs]; rfl⟩
  | _ => exact .inr ⟨rfl, _, rfl⟩

theorem evalProperties_missing {e : Entity} {name : Identifier} {what : String}
    (run : getProperty e name s = ⟨.ok (.error what), []⟩) (names : List Identifier) :
    evalProperties e (name :: names) s = ⟨.throw (.evaluation what), []⟩ := by
  rw [evalProperties, Coroutine.bind_ok (by rw [run]), run]
  rfl

theorem evalProperties_found {e x : Entity} {name : Identifier} {l : List Action}
    (run : getProperty e name s = ⟨.ok (.ok x), l⟩) (names : List Identifier) :
    evalProperties e (name :: names) s =
      ⟨(evalProperties x names (l.foldl State.apply s)).exit,
        l ++ (evalProperties x names (l.foldl State.apply s)).log⟩ := by
  rw [evalProperties, Coroutine.bind_ok (by rw [run]), Coroutine.after, run]
  rfl

theorem evalProperties_cases {e : Entity} {names : List Identifier}
    (hn : ∀ name ∈ names, isEntryName name) :
    (∃ x, resolveProperties s.heap e names = some x ∧ evalProperties e names s = ⟨.ok x, []⟩) ∨
    resolveProperties s.heap e names = none ∧
      ∃ what, evalProperties e names s = ⟨.throw (.evaluation what), []⟩ := by
  induction names generalizing e with
  | nil => exact .inl ⟨e, rfl, rfl⟩
  | cons name names ih =>
    obtain ⟨hname, hnames⟩ := List.forall_mem_cons.1 hn
    rcases getProperty_entry (s := s) (e := e) hname with ⟨k, a, x, rfl, hf, run⟩ | ⟨hr, what, run⟩
    · have resolve : resolveProperties s.heap (.dictionary k a) (name :: names) =
          resolveProperties s.heap x names := by
        simp [resolveProperties, hname.1, hname.2, hf]
      rw [resolve, evalProperties_found run]
      exact ih hnames
    · refine .inr ⟨?_, what, evalProperties_missing run names⟩
      rw [resolveProperties_cons, hr]
      rfl

/-- **A path of entries is looked up, with no other effect.** -/
theorem evalIdentifierPath_cases {path : IdentifierPath}
    (hn : ∀ name ∈ path.properties, isEntryName name) :
    (∃ x, s.resolve path = some x ∧ evalIdentifierPath path s = ⟨.ok x, []⟩) ∨
    s.resolve path = none ∧ ∃ what, evalIdentifierPath path s = ⟨.throw (.evaluation what), []⟩ := by
  rw [evalIdentifierPath, Eval.gets, Coroutine.gets_bind, State.resolve]
  cases s.findEntity path.front with
  | none => exact .inr ⟨rfl, _, rfl⟩
  | some e => exact evalProperties_cases hn

theorem evalIdentifierPath_of_resolve {path : IdentifierPath} {lhs : Entity}
    (h : s.resolve path = some lhs) : evalIdentifierPath path s = ⟨.ok lhs, []⟩ := by
  obtain ⟨e, -, hp⟩ := Option.bind_eq_some_iff.1 h
  rcases evalIdentifierPath_cases (s := s) (resolveProperties_names hp) with ⟨x, hx, run⟩ | ⟨hx, -⟩
  · rw [run, Option.some.inj (hx.symm.trans h)]
  · cases hx.symm.trans h

/-- An expression that is a path is evaluated as this path. -/
theorem evalExpression_path (host : Host) (invoke : WorkflowInvocation → Eval Entity)
    (path : IdentifierPath) : evalExpression host invoke path.toExpression =
      evalIdentifierPath path := by
  rw [IdentifierPath.toExpression, evalExpression_primary, evalPrimary]

theorem reads_iff {path : IdentifierPath} (hn : ∀ name ∈ path.properties, isEntryName name)
    {x : Value} : s.Reads path x ↔ ∃ e, s.resolve path = some e ∧ s.heap.HasValue e x := by
  rcases evalIdentifierPath_cases (s := s) hn with ⟨e, hr, run⟩ | ⟨hr, what, run⟩
  · simp only [State.Reads, Coroutine.after, run, hr, List.foldl_nil, Exit.ok.injEq,
      Option.some.injEq]
  · simp [State.Reads, run, hr]

end Evaluation

end EzCpp.Flow
