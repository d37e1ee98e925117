import EzCpp.Flow.Process

/-!
# Declarations without an initialiser

A constructor hands out its default value itself, which is in the cell `0`. For an integer or an
array that is the storage a later assignment writes to (`default_changed`). Declarations give fresh
default values in just those histories in which nothing new is assigned to the storage of a default
value, and nothing new is assigned through a variable without an initialiser to storage that is part
of another variable (`defaults_fresh_iff`).
-/

namespace EzCpp.Flow

open EzCpp.Lib Ast

/-- What a declaration without initialiser is to give. -/
def initialValue (host : Host) : FlowType → Option Value
  | .void => some (.node .void [])
  | .boolean => some (.node (.boolean false) [])
  | .integer => some (.node (.integer 0) [])
  | .real => some (.node (.real 0.0) [])
  | .string => some (.node (.string "") [])
  | .duration => some (.node (.duration ⟨0, .sec⟩) [])
  | .timePoint => some (.node (.timePoint host.defaultTimePoint) [])
  | .array => some (.node .array [])
  | .dictionary k => some (.node (.dictionary k []) [])
  | _ => none

/-! ## The default values -/

/-- The default values are what they were at first. -/
structure Heap.Pristine (h : Heap) : Prop where
  next : 0 < h.next
  cell : ∀ k, k ≠ .dictionary → h.cell k 0 = initialDefault k

theorem Heap.pristine_initial : Heap.initial.Pristine := ⟨Nat.one_pos, fun _ _ => rfl⟩

section Pristine

variable {host : Host} {h : Heap}

/-- The default values are those of a new process. -/
theorem Heap.Pristine.hasValue (hp : h.Pristine) {type : FlowType} {e : Entity}
    (hd : defaultValue host type = some e) :
    ∃ x, initialValue host type = some x ∧ h.HasValue e x := by
  have leaf : ∀ (e : Entity) l, h.children e = [] → h.label e = l → h.HasValue e (.node l []) := by
    rintro e _ he rfl
    refine .node ?_
    rw [show h.graph.children e = [] from he]
    exact .nil
  cases type <;> cases hd <;> refine ⟨_, rfl, leaf _ _ ?_ ?_⟩
  case array.refl.refine_1 => exact hp.cell .array nofun
  case boolean.refl.refine_2 => exact congrArg Label.boolean (hp.cell .boolean nofun)
  case integer.refl.refine_2 => exact congrArg Label.integer (hp.cell .integer nofun)
  case real.refl.refine_2 => exact congrArg Label.real (hp.cell .real nofun)
  case string.refl.refine_2 => exact congrArg Label.string (hp.cell .string nofun)
  case duration.refl.refine_2 => exact congrArg Label.duration (hp.cell .duration nofun)
  all_goals rfl

/-- The default values are those of a new process if, and only if, they are read like them. -/
theorem Heap.pristine_iff (host : Host) (hnext : 0 < h.next) : h.Pristine ↔
    ∀ type e, defaultValue host type = some e → ∃ x, initialValue host type = some x ∧ h.HasValue e x := by
  refine ⟨fun hp _ _ hd => hp.hasValue hd, fun hv => ⟨hnext, fun k hk => ?_⟩⟩
  cases k with
  | boolean =>
    obtain ⟨_, ⟨⟩, hx⟩ := hv .boolean _ rfl
    exact (Label.boolean.inj hx.label).symm
  | integer =>
    obtain ⟨_, ⟨⟩, hx⟩ := hv .integer _ rfl
    exact (Label.integer.inj hx.label).symm
  | real =>
    obtain ⟨_, ⟨⟩, hx⟩ := hv .real _ rfl
    exact (Label.real.inj hx.label).symm
  | string =>
    obtain ⟨_, ⟨⟩, hx⟩ := hv .string _ rfl
    exact (Label.string.inj hx.label).symm
  | duration =>
    obtain ⟨_, ⟨⟩, hx⟩ := hv .duration _ rfl
    exact (Label.duration.inj hx.label).symm
  | array =>
    obtain ⟨_, ⟨⟩, hx⟩ := hv .array _ rfl
    have hchildren : h.graph.UnfoldsAll (h.cell .array 0) [] := hx.inv.2
    generalize h.cell .array 0 = es at hchildren
    cases hchildren
    rfl
  | dictionary => exact absurd rfl hk

theorem Heap.Pristine.write {k : Kind} {a : Nat} {c : k.Content} (hp : h.Pristine)
    (hw : a = 0 → k ≠ .dictionary → c = Heap.initialDefault k) : (h.write k a c).Pristine := by
  refine ⟨hp.next, fun k' hk' => ?_⟩
  by_cases he : Storage.mk k' 0 = ⟨k, a⟩
  · cases he
    rw [Heap.write_cell_self]
    exact hw rfl hk'
  · rw [Heap.write_cell_of_ne _ _ he]
    exact hp.cell k' hk'

theorem Heap.Pristine.alloc (hp : h.Pristine) (k : Kind) (c : k.Content) :
    (h.alloc k c).Pristine where
  next := Nat.succ_pos _
  cell k' hk' := by
    rw [Heap.alloc_cell_of_lt _ _ hp.next]
    exact hp.cell k' hk'

/-- What is left of a key that has been moved is the default string. -/
theorem Heap.Pristine.insert (hp : h.Pristine) (d key : Nat) (value : Entity) :
    (h.insert d key value).Pristine :=
  (hp.write fun _ _ => rfl).write fun _ hk => absurd rfl hk

/-- The default values are read as they were. -/
def KeepsDefaults (host : Host) (h h' : Heap) : Prop :=
  ∀ type e, defaultValue host type = some e → LabelledGraph.Alike h'.graph h.graph e e

theorem Heap.Pristine.keeps (hp : h.Pristine) {h' : Heap} (hp' : h'.Pristine) :
    KeepsDefaults host h h' := by
  intro type e hd
  obtain ⟨x, hx, hv⟩ := hp.hasValue hd
  obtain ⟨x', hx', hv'⟩ := hp'.hasValue hd
  cases hx.symm.trans hx'
  exact hv'.alike hv

theorem Heap.Pristine.of_keeps (hp : h.Pristine) {h' : Heap} (hnext : h.next ≤ h'.next)
    (hk : KeepsDefaults host h h') : h'.Pristine := by
  refine (Heap.pristine_iff host (hp.next.trans_le hnext)).mpr fun type e hd => ?_
  obtain ⟨x, hx, hv⟩ := hp.hasValue hd
  exact ⟨x, hx, (hk type e hd).unfolds_iff.mpr hv⟩

/-- A default value contains the entity, or is it. -/
def PartOfDefault (host : Host) (h : Heap) (e : Entity) : Prop :=
  ∃ type d, defaultValue host type = some d ∧ h.graph.Reaches (· = e) d

theorem keepsDefaults_afterAssign_iff {lhs rhs : Entity} :
    KeepsDefaults host h (h.afterAssign lhs rhs) ↔ (PartOfDefault host h lhs → h.Same lhs rhs) := by
  simp only [KeepsDefaults, alike_afterAssign_iff, PartOfDefault, or_iff_not_imp_right, not_not]
  exact ⟨fun hk ⟨type, d, hd, hr⟩ => hk type d hd hr, fun hk type d hd hr => hk ⟨type, d, hd, hr⟩⟩

theorem Heap.Pristine.apply (host : Host) {s : State} (hp : s.heap.Pristine) (a : Action)
    (ha : ∀ z lhs rhs, a = .assign z lhs rhs → PartOfDefault host s.heap lhs → s.heap.Same lhs rhs) :
    (s.apply a).heap.Pristine := by
  cases a with
  | alloc k c => exact hp.alloc k c
  | assign z lhs rhs =>
    exact hp.of_keeps (sameBut_assign s.heap lhs rhs).next
      (keepsDefaults_afterAssign_iff.mpr (ha z lhs rhs rfl))
  | insert d key value => exact hp.insert d key value
  | pop =>
    rw [State.apply, s.pop_heap]
    exact hp
  | _ => exact hp

end Pristine

/-! ## Declarations -/

/-- The declaration binds its name to the initial default value of the type. -/
def BindsInitial (host : Host) (depth : Nat) (x T : Identifier) (s : State) : Prop :=
  ∃ type v y, s.findType T = some type ∧
    ((runStatement host depth (uninitialised x T)).after s).findEntity x = some v ∧
    initialValue host type = some y ∧
    ((runStatement host depth (uninitialised x T)).after s).heap.HasValue v y

theorem constructCopy_void {host : Host} {type : FlowType} {s : State} {v : Entity}
    (hp : s.heap.Pristine) (hv : (constructCopy host type .void s).exit = .ok v) :
    ∃ y, initialValue host type = some y ∧
      ((constructCopy host type .void).after s).heap.HasValue v y := by
  have eq : constructCopy host type .void = construct host type .void >>= Eval.ensureValue :=
    Coroutine.pure_bind Entity.void _
  rw [eq] at hv ⊢
  obtain ⟨r, hr, h⟩ := Coroutine.of_bind_ok hv
  rw [Coroutine.after_bind_ok hr]
  cases r with
  | error what => cases h
  | ok w =>
    cases h
    have unchanged : ∀ t : State, (Eval.ensureValue (.ok v)).after t = t := fun _ => rfl
    rw [unchanged]
    rcases construct_void host hr with ⟨hd, ht⟩ | ⟨k, rfl, rfl, ht⟩
    · rw [ht]
      exact hp.hasValue hd
    · rw [ht]
      have cell := s.heap.alloc_cell_self .dictionary .empty
      have label : (s.heap.alloc .dictionary .empty).label (.dictionary k s.heap.next) =
          .dictionary k [] := by
        rw [Heap.label, cell]
        rfl
      have children : (s.heap.alloc .dictionary .empty).graph.children
          (.dictionary k s.heap.next) = [] := by
        change ((s.heap.alloc .dictionary .empty).cell .dictionary s.heap.next).entries.map
          Prod.snd = []
        rw [cell]
        rfl
      refine ⟨_, rfl, ?_⟩
      have value : (s.heap.alloc .dictionary .empty).HasValue (.dictionary k s.heap.next)
          (.node ((s.heap.alloc .dictionary .empty).label (.dictionary k s.heap.next)) []) :=
        .node (children ▸ .nil)
      rw [label] at value
      exact value

theorem bindsInitial (host : Host) (depth : Nat) {x T : Identifier} {s : State}
    (hp : s.heap.Pristine)
    (hok : (runStatement host depth (uninitialised x T) s).exit = .ok ()) :
    BindsInitial host depth x T s := by
  obtain ⟨exit, after⟩ := run_variableDeclaration host depth x T none s
  rw [Option.elim] at exit after
  rw [uninitialised, exit] at hok
  obtain ⟨type, arg, v, htype, harg, hv, ht⟩ := evalVariableDeclaration_ok host hok
  cases harg
  rw [Coroutine.after_pure] at hv ht
  obtain ⟨y, hy, value⟩ := constructCopy_void hp hv
  refine ⟨type, v, y, htype, ?_, hy, ?_⟩
  · rw [uninitialised, after, ht, findEntity_declare, if_pos rfl]
  · rw [uninitialised, after, ht]
    exact value


/-! ## The law -/

namespace Process

/-- Every declaration without initialiser that succeeds here gives the initial default value. -/
def DeclaresInitial (host : Host) (p : Process) : Prop := ∀ depth i x T,
  (runStatement host depth (uninitialised x T) (p.view i)).exit = .ok () →
    BindsInitial host depth x T (p.view i)

/-- All variables but `x` of the interpreter `i` hold what they held, and it is read as it was. -/
def KeepsOthers (i : Nat) (x : Variable) (p q : Process) : Prop :=
  ∀ j y e, (j, y) ≠ (i, x) → p.value? j y = some e →
    q.value? j y = some e ∧ LabelledGraph.Alike q.heap.graph p.heap.graph e e

/-- Declarations without initialiser give fresh default values, all through the history. -/
structure FreshDefaults (host : Host) (p : Process) (events : List Event) : Prop where
  declares : ∀ es, es <+: events → DeclaresInitial host (p.run es)
  assigns : ∀ es i x lhs rhs, es ++ [⟨i, .assign (some x) lhs rhs⟩] <+: events →
    (p.run es).Uninitialised i x →
      KeepsDefaults host (p.run es).heap ((p.run es).step ⟨i, .assign (some x) lhs rhs⟩).heap ∧
      KeepsOthers i x (p.run es) ((p.run es).step ⟨i, .assign (some x) lhs rhs⟩)

/-- A variable but `x` of the interpreter `i` contains the entity, or holds it. -/
def PartOfOther (p : Process) (i : Nat) (x : Variable) (e : Entity) : Prop :=
  ∃ j y d, (j, y) ≠ (i, x) ∧ p.value? j y = some d ∧ p.heap.graph.Reaches (· = e) d

/-- Nothing new is assigned to a default value. -/
def SparesDefaults (host : Host) (p : Process) (events : List Event) : Prop :=
  ∀ es i z lhs rhs, es ++ [⟨i, .assign z lhs rhs⟩] <+: events →
    PartOfDefault host (p.run es).heap lhs → (p.run es).heap.Same lhs rhs

/-- Nothing new is assigned through a variable without initialiser to what is part of another
variable. -/
def SparesOthers (p : Process) (events : List Event) : Prop :=
  ∀ es i x lhs rhs, es ++ [⟨i, .assign (some x) lhs rhs⟩] <+: events →
    (p.run es).Uninitialised i x → (p.run es).PartOfOther i x lhs → (p.run es).heap.Same lhs rhs

structure AssignsApart (host : Host) (p : Process) (events : List Event) : Prop where
  defaults : SparesDefaults host p events
  others : SparesOthers p events

variable {host : Host} {p : Process} {schedule : Nat → List Wake} {es events : List Event} {i : Nat}

theorem keepsOthers_assign_iff {x : Variable} {z : Option Variable} {lhs rhs : Entity} :
    KeepsOthers i x p (p.step ⟨i, .assign z lhs rhs⟩) ↔
      (p.PartOfOther i x lhs → p.heap.Same lhs rhs) := by
  have heap : (p.step ⟨i, .assign z lhs rhs⟩).heap = p.heap.afterAssign lhs rhs := step_heap p _
  simp only [KeepsOthers, value?_assign, heap, alike_afterAssign_iff, PartOfOther]
  constructor
  · rintro hk ⟨j, y, e, hy, he, hr⟩
    exact (hk j y e hy he).2.resolve_right (not_not.mpr hr)
  · intro hk j y e hy he
    refine ⟨he, ?_⟩
    by_cases hr : p.heap.graph.Reaches (· = lhs) e
    · exact .inl (hk ⟨j, y, e, hy, he, hr⟩)
    · exact .inr hr

/-- **The default values never change**, unless something new is assigned to them. -/
theorem pristine_run (h : SparesDefaults host (initial schedule) events) (hes : es <+: events) :
    ((initial schedule).run es).heap.Pristine := by
  induction es using List.reverseRecOn with
  | nil => exact Heap.pristine_initial
  | append_singleton es event ih =>
    rw [run_concat, step_heap]
    refine Heap.Pristine.apply host (s := ((initial schedule).run es).view event.interpreter)
      (ih ((List.prefix_append es [event]).trans hes)) event.action fun z lhs rhs ha => ?_
    obtain ⟨i, a⟩ := event
    cases ha
    exact h es i z lhs rhs hes

/-- An interpreter that has done nothing declares every type that has a default value. -/
theorem constructed_declares (host : Host) (heap : Heap) (schedule : List Wake) {type : FlowType} {e : Entity}
    (hd : defaultValue host type = some e) :
    let s := State.constructed heap schedule
    let m := runStatement host 0 (uninitialised "x" type.name)
    (m s).exit = .ok () ∧ s.findType type.name = some type ∧ (m.after s).findEntity "x" = some e ∧
      (m.after s).heap = heap := by
  cases type <;> cases hd <;> exact ⟨rfl, rfl, rfl, rfl⟩

/-- Where declarations give the initial default values, the default values have not changed. -/
theorem pristine_of_declaresInitial (h : DeclaresInitial host ((initial schedule).run es)) :
    ((initial schedule).run es).heap.Pristine := by
  refine (Heap.pristine_iff host (next_pos_run schedule es)).mpr fun type e hd => ?_
  obtain ⟨i, hi⟩ := exists_interpreter es
  have hview : ((initial schedule).run es).view i = .constructed _ (schedule i) := view_run_of_not_mem hi
  obtain ⟨hok, htype, hfind, hheap⟩ :=
    constructed_declares host ((initial schedule).run es).heap (schedule i) hd
  obtain ⟨type', v, x, htype', hfind', hx, hv⟩ := h 0 i "x" type.name (by rw [hview]; exact hok)
  rw [hview] at htype' hfind' hv
  cases htype.symm.trans htype'
  cases hfind.symm.trans hfind'
  rw [hheap] at hv
  exact ⟨x, hx, hv⟩

/-- Declarations give the initial default values as long as nothing new is assigned to these, whatever
else is assigned to. -/
theorem declaresInitial_iff :
    (∀ es, es <+: events → DeclaresInitial host ((initial schedule).run es)) ↔
      SparesDefaults host (initial schedule) events := by
  constructor
  · intro h es i z lhs rhs hes
    have before := pristine_of_declaresInitial (h es ((List.prefix_append es _).trans hes))
    have after := pristine_of_declaresInitial (h _ hes)
    rw [run_concat, step_heap] at after
    exact keepsDefaults_afterAssign_iff.mp (before.keeps after)
  · exact fun h es hes depth i x T => bindsInitial host depth (pristine_run h hes)

/-- Assignments through variables without initialiser leave the other variables alone as long as they
write nothing new to them, whatever becomes of the default values. -/
theorem keepsOthers_iff :
    (∀ es i x lhs rhs, es ++ [⟨i, .assign (some x) lhs rhs⟩] <+: events → (p.run es).Uninitialised i x →
      KeepsOthers i x (p.run es) ((p.run es).step ⟨i, .assign (some x) lhs rhs⟩)) ↔
      SparesOthers p events := by
  simp only [keepsOthers_assign_iff, SparesOthers]

/-- **When declarations without initialiser give fresh default values.** In every history of any
interpreters, that is the case if, and only if, nothing new is assigned to a default value, nor,
through a variable that was declared without initialiser, to what is part of another variable. -/
theorem defaults_fresh_iff (host : Host) (schedule : Nat → List Wake) (events : List Event) :
    FreshDefaults host (initial schedule) events ↔ AssignsApart host (initial schedule) events := by
  constructor
  · intro h
    exact ⟨declaresInitial_iff.mp h.declares,
      keepsOthers_iff.mp fun es i x lhs rhs hes hx => (h.assigns es i x lhs rhs hes hx).2⟩
  · intro h
    refine ⟨declaresInitial_iff.mpr h.defaults, fun es i x lhs rhs hes hx => ⟨?_, ?_⟩⟩
    · rw [step_heap]
      exact keepsDefaults_afterAssign_iff.mpr (h.defaults es i _ lhs rhs hes)
    · exact keepsOthers_iff.mpr h.others es i x lhs rhs hes hx

/-- A history with one assignment, at its end. -/
theorem assignsApart_concat {x : Variable} {lhs rhs : Entity}
    (hes : ∀ event ∈ es, event.action.isAssign = false)
    (hd : PartOfDefault host (p.run es).heap lhs → (p.run es).heap.Same lhs rhs)
    (ho : (p.run es).Uninitialised i x → (p.run es).PartOfOther i x lhs →
      (p.run es).heap.Same lhs rhs) :
    AssignsApart host p (es ++ [⟨i, .assign (some x) lhs rhs⟩]) := by
  have last {ds : List Event} {j : Nat} {z : Option Variable} {l r : Entity}
      (hds : ds ++ [⟨j, .assign z l r⟩] <+: es ++ [⟨i, .assign (some x) lhs rhs⟩]) :
      ds = es ∧ j = i ∧ z = some x ∧ l = lhs ∧ r = rhs := by
    rcases List.prefix_concat_iff.mp hds with heq | hds
    · obtain ⟨rfl, hlast⟩ := List.append_inj' heq rfl
      cases hlast
      exact ⟨rfl, rfl, rfl, rfl, rfl⟩
    · exact nomatch hes _ (hds.subset (List.mem_append_right ds List.mem_cons_self))
  constructor
  · intro ds j z l r hds
    obtain ⟨rfl, rfl, rfl, rfl, rfl⟩ := last hds
    exact hd
  · intro ds j y l r hds
    obtain ⟨rfl, rfl, hy, rfl, rfl⟩ := last hds
    cases hy
    exact ho

/-- What a program does in the first interpreter of a new process. -/
def evaluated (program : Program) : List Event :=
  ((setInstanceId 1 >>= fun _ => evalProgram .plain 0 program) (.constructed .initial [])).log.map
    (Event.mk 0)

end Process

/-- `i : integer = 5; a : array = [i]; i = 6` -/
def sharesElement : Program :=
  [.variableDeclaration "i" "integer" (some (Literal.integer 5).toExpression),
    .variableDeclaration "a" "array" (some (PrimaryExpression.array
      [IdentifierPath.toExpression ⟨"i", []⟩]).toExpression),
    .assignment ⟨"i", []⟩ (Literal.integer 6).toExpression]

/-- The assignment is seen in `a`, but `i` has an initialiser. -/
theorem sharesElement_fresh :
    (Process.initial fun _ => []).FreshDefaults .plain (Process.evaluated sharesElement) := by
  refine (Process.defaults_fresh_iff .plain (fun _ => []) _).mpr ?_
  let es := (Process.evaluated sharesElement).take 12
  let p := (Process.initial fun _ => []).run es
  have split : Process.evaluated sharesElement =
    es ++ [⟨0, .assign (some ⟨0, "i"⟩) (.integer 3) (.integer 6)⟩] := rfl
  have others : es.all (fun event => !event.action.isAssign) = true := rfl
  have declaration : p.declaration 0 ⟨0, "i"⟩ =
    some (.variableDeclaration "i" "integer" (some (Literal.integer 5).toExpression)) := rfl
  rw [split]
  refine Process.assignsApart_concat (fun event he => ?_) ?_ ?_
  · exact (Bool.not_eq_true' _).mp (List.all_eq_true.mp others event he)
  · rintro ⟨type, d, hd, hr⟩
    have children : p.heap.children d = [] := by
      cases type <;> cases hd <;> rfl
    cases hr with
    | here he => cases he; cases type <;> cases hd
    | child hx _ =>
      rw [show p.heap.graph.children d = [] from children] at hx
      cases hx
  · rintro ⟨T, hT⟩ -
    cases declaration.symm.trans hT

/-- `x : integer; x = 5` -/
def assignDefault : Program :=
  [uninitialised "x" "integer", .assignment ⟨"x", []⟩ (Literal.integer 5).toExpression]

/-- In a new interpreter, `y : integer` gives `5`. -/
theorem default_changed :
    ¬ ∀ host schedule events, (Process.initial schedule).FreshDefaults host events := by
  intro h
  have declares := (h .plain (fun _ => []) (Process.evaluated assignDefault)).declares _ (List.prefix_refl _)
  obtain ⟨type, v, y, htype, hf, hy, value⟩ := declares 0 1 "y" "integer" rfl
  have htype : type = .integer := Option.some.inj (htype.symm.trans rfl)
  have hv : v = .integer 0 := Option.some.inj (hf.symm.trans rfl)
  subst htype hv
  cases hy
  have label : Label.integer 0 = .integer 5 := value.label
  exact absurd (Label.integer.inj label) (by decide)

end EzCpp.Flow
