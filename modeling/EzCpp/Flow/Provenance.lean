import EzCpp.Flow.Value
import EzCpp.Lib.Histories

/-!
# Where storage comes from

A handle is known after a history if an allocation of the history has made its storage, as storage of
the kind the handle takes it for, or if it is to one of the default values. An action about handles
that are known leaves an interpreter that holds none but such handles (`State.Stored.apply`), and the
operations of the types give such handles for such handles.
-/

namespace EzCpp.Flow

open EzCpp.Lib Ast

/-! ## Storage that is known -/

/-- The entities in a cell. -/
def Kind.parts : (k : Kind) → k.Content → List Entity
  | .array, es => es
  | .dictionary, m => m.entries.map Prod.snd
  | .boolean, _ | .integer, _ | .real, _ | .string, _ | .duration, _ => []

/-- The entities that are in a handle itself. -/
def Entity.arguments : Entity → List Entity
  | .workflowInvocation _ _ args => args.map Prod.snd
  | _ => []

def Action.made : Action → Option Kind
  | .alloc k _ => some k
  | _ => none

/-- The kinds of the storage made, in the order of the addresses, from `1` on. What is made first is
the id of the interpreter. -/
def made (h : List Action) : List Kind := .integer :: h.filterMap Action.made

/-- Made as storage of this kind, or storage of a default value. There is no default dictionary. -/
def Storage.Known (h : List Action) (st : Storage) : Prop :=
  match st.address with
  | 0 => st.kind ≠ .dictionary
  | a + 1 => (made h)[a]? = some st.kind

inductive Entity.Known (h : List Action) : Entity → Prop
  | mk {e : Entity} (storage : ∀ st, e.storage = some st → st.Known h)
      (arguments : ∀ x ∈ e.arguments, Known h x) : Known h e

/-- The entities are known. -/
abbrev AllKnown (h : List Action) (es : List Entity) : Prop := ∀ e ∈ es, e.Known h

/-- Known, where it is a value. -/
def ResultKnown (h : List Action) (r : EvalResult) : Prop := ∀ e, r = .ok e → e.Known h

section Known

variable {h k : List Action} {st : Storage} {e : Entity} {es : List Entity}

theorem Entity.Known.storage (he : e.Known h) : ∀ st, e.storage = some st → st.Known h := by
  cases he with
  | mk hs _ => exact hs

theorem Entity.Known.arguments (he : e.Known h) : AllKnown h e.arguments := by
  cases he with
  | mk _ ha => exact ha

/-- An entity without storage and arguments is known. -/
theorem known_of_plain (hs : e.storage = none) (ha : e.arguments = []) : e.Known h := by
  refine .mk (fun st hst => ?_) (fun x hx => ?_)
  · rw [hs] at hst
    cases hst
  · rw [ha] at hx
    cases hx

theorem known_of_storage (hs : e.storage = some st) (ha : e.arguments = []) (hk : st.Known h) :
    e.Known h := by
  refine .mk (fun st' hst => ?_) (fun x hx => ?_)
  · cases hs.symm.trans hst
    exact hk
  · rw [ha] at hx
    cases hx

theorem allKnown_nil : AllKnown h [] := nofun

theorem known_error (what : String) : (Entity.error what).Known h := known_of_plain rfl rfl

theorem resultKnown_error (what : String) : ResultKnown h (.error what) := fun _ he => by cases he

theorem Entity.Known.result (he : e.Known h) : ResultKnown h (.ok e) := fun _ hr => by
  cases hr
  exact he

/-! What is known goes on to be known. -/

theorem Storage.Known.mono (hs : st.Known h) (hk : h <+: k) : st.Known k := by
  unfold Storage.Known at hs ⊢
  split at hs
  · exact hs
  · obtain ⟨t, ht⟩ : made h <+: made k := List.cons_prefix_cons.mpr ⟨rfl, hk.filterMap _⟩
    rw [← ht, List.getElem?_append_left (List.getElem?_eq_some_iff.mp hs).1]
    exact hs

theorem Entity.Known.mono (he : e.Known h) (hk : h <+: k) : e.Known k := by
  induction he with
  | mk hs _ ih => exact .mk (fun st hst => (hs st hst).mono hk) ih

theorem AllKnown.mono (hes : AllKnown h es) (hk : h <+: k) : AllKnown k es :=
  fun e he => (hes e he).mono hk

end Known

/-! ## The invariant -/

/-- The entities that an action is about are known. -/
def Action.Known (h : List Action) : Action → Prop
  | .alloc k c => AllKnown h (k.parts c)
  | .assign _ lhs rhs => lhs.Known h ∧ rhs.Known h
  | .insert d key value =>
    Storage.Known h ⟨.dictionary, d⟩ ∧ Storage.Known h ⟨.string, key⟩ ∧ value.Known h
  | .declare _ value => value.Known h
  | .returnValue _ value _ => value.Known h
  | _ => True

/-- The handles of an interpreter with this history are known, the addresses are given out in order,
and every action was about entities that were known. -/
structure State.Stored (h : List Action) (s : State) : Prop where
  next : s.heap.next = (made h).length + 1
  cells : ∀ k a, Storage.Known h ⟨k, a⟩ → AllKnown h (k.parts (s.heap.cell k a))
  scopes : ∀ scope ∈ s.scopes, AllKnown h (scope.entries.map Prod.snd)
  returns : ∀ cell e, s.returns cell = some e → e.Known h
  actions : ∀ l a, l ++ [a] <+: h → a.Known l

section Step

variable {h : List Action} {s : State}

theorem made_append_of_none {a : Action} (ha : a.made = none) : made (h ++ [a]) = made h := by
  simp [made, ha]

theorem made_append_alloc (k : Kind) (c : k.Content) : made (h ++ [.alloc k c]) = made h ++ [k] := by
  simp [made, Action.made]

theorem prefix_append_one (h : List Action) (a : Action) : h <+: h ++ [a] := List.prefix_append h [a]

theorem Storage.known_append {a : Action} (ha : a.made = none) {st : Storage} :
    st.Known (h ++ [a]) ↔ st.Known h := by
  simp only [Storage.Known, made_append_of_none ha]

/-- Only the allocated storage is new. -/
theorem known_alloc {k : Kind} {c : k.Content} {st : Storage} (hs : st.Known (h ++ [.alloc k c])) :
    st.Known h ∨ st = ⟨k, (made h).length + 1⟩ := by
  obtain ⟨kind, address⟩ := st
  cases address with
  | zero => exact .inl hs
  | succ a =>
    have hs : (made (h ++ [.alloc k c]))[a]? = some kind := hs
    rw [made_append_alloc, List.getElem?_append] at hs
    split at hs
    next => exact .inl hs
    next hlt =>
      obtain ⟨hlt', hk⟩ := List.getElem?_eq_some_iff.mp hs
      have ha : a = (made h).length := by
        rw [List.length_singleton] at hlt'
        omega
      subst ha
      simp only [Nat.sub_self, List.getElem_cons_zero] at hk
      subst hk
      exact .inr rfl

theorem alloc_known (k : Kind) (c : k.Content) :
    Storage.Known (h ++ [.alloc k c]) ⟨k, (made h).length + 1⟩ := by
  have hk : (made (h ++ [.alloc k c]))[(made h).length]? = some k := by
    rw [made_append_alloc, List.getElem?_append_right (Nat.le_refl _), Nat.sub_self]
    rfl
  exact hk

theorem actions_append (hs : s.Stored h) {a : Action} (ha : a.Known h) (l : List Action) (b : Action)
    (hl : l ++ [b] <+: h ++ [a]) : b.Known l := by
  rcases List.prefix_concat_iff.mp hl with heq | hl
  · obtain ⟨rfl, hb⟩ := List.append_inj' heq rfl
    cases hb
    exact ha
  · exact hs.actions l b hl

/-- An action that makes no storage keeps the invariant, if what it writes is known. -/
theorem State.Stored.write (hs : s.Stored h) {a : Action} {s' : State} (known : a.Known h)
    (ha : a.made = none)
    (next : s'.heap.next = s.heap.next)
    (cells : ∀ k a, Storage.Known h ⟨k, a⟩ → AllKnown h (k.parts (s'.heap.cell k a)))
    (scopes : ∀ scope ∈ s'.scopes, AllKnown h (scope.entries.map Prod.snd))
    (returns : ∀ cell e, s'.returns cell = some e → e.Known h) : s'.Stored (h ++ [a]) where
  next := by rw [next, hs.next, made_append_of_none ha]
  cells k b hb := AllKnown.mono (cells k b ((Storage.known_append ha).mp hb)) (prefix_append_one h a)
  scopes scope hscope := AllKnown.mono (scopes scope hscope) (prefix_append_one h a)
  returns cell e he := (returns cell e he).mono (prefix_append_one h a)
  actions := actions_append hs known

/-- One cell is written, with entities that are known. -/
theorem parts_write {heap : Heap}
    (hc : ∀ k a, Storage.Known h ⟨k, a⟩ → AllKnown h (k.parts (heap.cell k a))) {k : Kind}
    {a : Nat} {c : k.Content} (hp : AllKnown h (k.parts c)) :
    ∀ k' a', Storage.Known h ⟨k', a'⟩ → AllKnown h (k'.parts ((heap.write k a c).cell k' a')) := by
  intro k' a' hk
  by_cases heq : (⟨k', a'⟩ : Storage) = ⟨k, a⟩
  · cases heq
    rw [Heap.write_cell_self]
    exact hp
  · rw [Heap.write_cell_of_ne _ _ heq]
    exact hc k' a' hk

theorem cells_assign (hs : s.Stored h) (lhs : Entity) {rhs : Entity} (hr : rhs.Known h) :
    (s.heap.afterAssign lhs rhs).next = s.heap.next ∧
      ∀ k a, Storage.Known h ⟨k, a⟩ →
        AllKnown h (k.parts ((s.heap.afterAssign lhs rhs).cell k a)) := by
  have same : s.heap.next = s.heap.next ∧
      ∀ k a, Storage.Known h ⟨k, a⟩ → AllKnown h (k.parts (s.heap.cell k a)) := ⟨rfl, hs.cells⟩
  unfold Heap.afterAssign
  cases ha : s.heap.assign lhs rhs with
  | error what => exact same
  | ok r =>
    unfold Heap.assign at ha
    split at ha
    · split at ha <;> cases ha
      all_goals exact ⟨rfl, parts_write hs.cells nofun⟩
    · split at ha <;> cases ha
      exact ⟨rfl, parts_write hs.cells (hs.cells _ _ (hr.storage _ rfl))⟩
    · split at ha <;> cases ha
      exact same

theorem cells_insert (hs : s.Stored h) {d key : Nat} {value : Entity}
    (hd : Storage.Known h ⟨.dictionary, d⟩) (hv : value.Known h) :
    ∀ k a, Storage.Known h ⟨k, a⟩ → AllKnown h (k.parts ((s.heap.insert d key value).cell k a)) := by
  have moved : AllKnown h (Kind.string.parts "") := nofun
  refine parts_write (parts_write hs.cells moved) fun e he => ?_
  obtain ⟨entry, hm, rfl⟩ := List.mem_map.mp he
  rcases SortedMap.mem_insertEntries hm with rfl | hm
  · exact hv
  · exact hs.cells _ _ hd _ (List.mem_map_of_mem hm)

theorem stored_alloc (hs : s.Stored h) {k : Kind} {c : k.Content} (hc : AllKnown h (k.parts c)) :
    (s.apply (.alloc k c)).Stored (h ++ [.alloc k c]) := by
  have mono := prefix_append_one h (.alloc k c)
  refine ⟨?_, fun k' a' hk => ?_, fun scope hscope => AllKnown.mono (hs.scopes scope hscope) mono,
    fun cell e he => (hs.returns cell e he).mono mono, actions_append hs hc⟩
  · rw [made_append_alloc, List.length_append]
    exact congrArg (· + 1) hs.next
  · suffices hparts : AllKnown h (k'.parts ((s.heap.alloc k c).cell k' a')) from
      AllKnown.mono hparts mono
    rcases known_alloc hk with hk | heq
    · exact parts_write hs.cells hc k' a' hk
    · cases heq
      rw [← hs.next, s.heap.alloc_cell_self k c]
      exact hc

/-- The current scope is replaced by another one. -/
theorem scopes_cons (hs : s.Stored h) {scope : Scope} (hscope : AllKnown h (scope.entries.map Prod.snd)) :
    ∀ scope' ∈ scope :: s.outer, AllKnown h (scope'.entries.map Prod.snd) :=
  List.forall_mem_cons.mpr ⟨hscope, fun scope' hm => hs.scopes scope' (List.mem_cons_of_mem _ hm)⟩

theorem returns_update (hs : s.Stored h) (cell : Nat) {value : Option Entity}
    (hv : ∀ e, value = some e → e.Known h) :
    ∀ cell' e, Function.update s.returns cell value cell' = some e → e.Known h := by
  intro cell' e he
  rw [Function.update_apply] at he
  split at he
  · exact hv e he
  · exact hs.returns cell' e he

/-- The entries of the scopes are those of before, without those of the current one. -/
theorem scopes_known_pop (hs : s.Stored h) :
    ∀ scope ∈ s.pop.scopes, AllKnown h (scope.entries.map Prod.snd) := by
  unfold State.pop
  split
  next => exact hs.scopes
  next below outer ho =>
    have hbelow : ∀ scope ∈ below :: outer, AllKnown h (scope.entries.map Prod.snd) := by
      rw [← ho]
      exact fun scope hm => hs.scopes scope (List.mem_cons_of_mem _ hm)
    exact List.forall_mem_cons.mpr (List.forall_mem_cons.mp hbelow)

/-- **Every action about entities that are known keeps the invariant.** -/
theorem State.Stored.apply (hs : s.Stored h) {a : Action} (ha : a.Known h) :
    (s.apply a).Stored (h ++ [a]) := by
  have current : AllKnown h (s.current.entries.map Prod.snd) := hs.scopes s.current List.mem_cons_self
  cases a with
  | alloc k c => exact stored_alloc hs ha
  | assign x lhs rhs =>
    obtain ⟨hnext, hcells⟩ := cells_assign hs lhs ha.2
    exact hs.write ha rfl hnext hcells hs.scopes hs.returns
  | insert d key value =>
    exact hs.write ha rfl rfl (cells_insert hs ha.1 ha.2.2) hs.scopes hs.returns
  | declare name value =>
    have declared : AllKnown h (value :: s.current.entries.map Prod.snd) :=
      List.forall_mem_cons.mpr ⟨ha, current⟩
    exact hs.write ha rfl rfl hs.cells (scopes_cons hs declared) hs.returns
  | push type =>
    refine hs.write ha rfl rfl hs.cells (List.forall_mem_cons.mpr ⟨nofun, hs.scopes⟩) ?_
    change ∀ cell e, (if type = .function then Function.update s.returns s.pushed none
      else s.returns) cell = some e → e.Known h
    split
    · exact returns_update hs s.pushed nofun
    · exact hs.returns
  | pop =>
    refine hs.write ha rfl (congrArg Heap.next s.pop_heap) ?_ (scopes_known_pop hs) ?_
    · change ∀ k a, Storage.Known h ⟨k, a⟩ → AllKnown h (k.parts (s.pop.heap.cell k a))
      rw [s.pop_heap]
      exact hs.cells
    · change ∀ cell e, s.pop.returns cell = some e → e.Known h
      rw [s.pop_returns]
      exact hs.returns
  | returnValue owner value origin =>
    refine hs.write ha rfl rfl hs.cells (scopes_cons hs current) ?_
    exact returns_update hs s.current.returnValue fun e he => Option.some.inj he ▸ ha
  | breakLoop => exact hs.write ha rfl rfl hs.cells (scopes_cons hs current) hs.returns
  | wake | print _ | request _ _ | execute _ _ | timeout =>
    exact hs.write ha rfl rfl hs.cells hs.scopes hs.returns

end Step

/-! ## What an evaluation gives -/

/-- Known, as the values of a dictionary. -/
abbrev MapKnown (h : List Action) (m : SortedMap String Entity) : Prop :=
  AllKnown h (Kind.dictionary.parts m)

abbrev ArgumentsKnown (h : List Action) (args : CallArguments) : Prop :=
  AllKnown h (args.map Prod.snd)

/-- At every moment the interpreter holds only handles that are known, and what is returned is as `Q`
says. -/
abbrev Yields (schedule : List Wake) (h : List Action) {α : Type} (m : Eval α)
    (Q : List Action → α → Prop) : Prop :=
  Coroutine.Ensures (State.fresh schedule)
    (fun h => (h.foldl State.apply (State.fresh schedule)).Stored h) h m Q

section Evaluations

variable {schedule : List Wake} {h : List Action}

/-! ### Actions -/

theorem gets_yields {α : Type} (f : State → α) :
    Yields schedule h (Eval.gets f) fun _ _ => True :=
  .gets fun _ => trivial

theorem perform_yields {a : Action} (ha : a.Known h) :
    Yields schedule h (Eval.perform a) fun _ _ => True :=
  .perform fun hs => ⟨by rw [List.foldl_append]; exact hs.apply ha, trivial⟩

theorem alloc_yields {k : Kind} {c : k.Content} (hc : AllKnown h (k.parts c)) :
    Yields schedule h (Eval.alloc k c) fun h a => Storage.Known h ⟨k, a⟩ := by
  have address : Yields schedule h (Eval.gets fun s => s.heap.next)
      fun h' a => h' = h ∧ a = (made h).length + 1 := .gets fun hs => ⟨rfl, hs.next⟩
  refine .bind address fun h' a _ ha => ?_
  obtain ⟨rfl, rfl⟩ := ha
  have made : Yields schedule h' (Eval.perform (.alloc k c))
      fun h _ => Storage.Known h ⟨k, (made h').length + 1⟩ :=
    .perform fun hs => ⟨by rw [List.foldl_append]; exact hs.apply hc, alloc_known k c⟩
  exact .bind made fun _ _ _ hk => .pure hk

theorem cell_yields {k : Kind} {a : Nat} (hk : Storage.Known h ⟨k, a⟩) :
    Yields schedule h (Eval.gets fun s => s.heap.cell k a) fun h c => AllKnown h (k.parts c) :=
  .gets fun hs => hs.cells k a hk

/-- A handle to new storage. -/
theorem new_yields (k : Kind) {c : k.Content} (hc : AllKnown h (k.parts c)) {g : Nat → Entity}
    (hs : ∀ a, (g a).storage = some ⟨k, a⟩) (ha : ∀ a, (g a).arguments = []) :
    Yields schedule h (Eval.alloc k c >>= fun a => (pure (g a) : Eval Entity)) Entity.Known :=
  .bind (alloc_yields hc) fun _ _ _ hk => .pure (known_of_storage (hs _) (ha _) hk)

theorem newResult_yields (k : Kind) {c : k.Content} (hc : AllKnown h (k.parts c)) {g : Nat → Entity}
    (hs : ∀ a, (g a).storage = some ⟨k, a⟩) (ha : ∀ a, (g a).arguments = []) :
    Yields schedule h (Eval.alloc k c >>= fun a => (pure (.ok (g a)) : Eval EvalResult)) ResultKnown :=
  .bind (alloc_yields hc) fun _ _ _ hk => .pure (known_of_storage (hs _) (ha _) hk).result

theorem someNew_yields (k : Kind) {c : k.Content} (hc : AllKnown h (k.parts c)) {g : Nat → Entity}
    (hs : ∀ a, (g a).storage = some ⟨k, a⟩) (ha : ∀ a, (g a).arguments = []) :
    Yields schedule h (Eval.alloc k c >>= fun a => (pure (some (g a)) : Eval (Option Entity)))
      fun h e => ∀ x, e = some x → x.Known h :=
  .bind (alloc_yields hc) fun _ _ _ hk => .pure fun _ hx =>
    Option.some.inj hx ▸ known_of_storage (hs _) (ha _) hk

theorem ensureValue_yields {r : EvalResult} (hr : ResultKnown h r) :
    Yields schedule h (Eval.ensureValue r) Entity.Known := by
  cases r with
  | ok value => exact .pure (hr value rfl)
  | error what => exact .throw _

/-- The value of an operation of a type. -/
theorem value_yields {m : Eval EvalResult} (hm : Yields schedule h m ResultKnown) :
    Yields schedule h (m >>= Eval.ensureValue) Entity.Known :=
  .bind hm fun _ _ _ hr => ensureValue_yields hr

/-! ### Construction -/

theorem constructDictionary_yields (k : DictionaryKind) {arg : Entity} (ha : arg.Known h) :
    Yields schedule h (constructDictionary k arg) ResultKnown := by
  unfold constructDictionary
  split
  next => exact newResult_yields .dictionary (c := .empty) allKnown_nil (fun _ => rfl) fun _ => rfl
  next => exact .pure (known_error _).result
  next k' a =>
    refine .ite (fun _ => .pure ha.result) fun _ => .ite (fun _ => ?_) fun _ =>
      .pure (resultKnown_error _)
    exact .bind (cell_yields (ha.storage _ rfl)) fun _ _ _ hc =>
      newResult_yields .dictionary hc (fun _ => rfl) fun _ => rfl
  next => exact .pure (resultKnown_error _)

theorem default_known {host : Host} {type : FlowType} {e : Entity} (hd : defaultValue host type = some e) :
    e.Known h := by
  cases type <;> cases hd
  case void | timePoint => exact known_of_plain rfl rfl
  all_goals exact known_of_storage rfl rfl nofun

theorem construct_yields (host : Host) (type : FlowType) {arg : Entity} (ha : arg.Known h) :
    Yields schedule h (construct host type arg) ResultKnown := by
  unfold construct
  split
  next => exact constructDictionary_yields _ ha
  next =>
    split
    next default hd =>
      refine .pure ?_
      unfold makeConstructor
      split
      next => exact (default_known hd).result
      next =>
        split
        · exact ha.result
        · exact resultKnown_error _
    next => exact .throw _

/-- A handle to new storage with the content of another one. -/
theorem detach_yields {k : Kind} {a : Nat} (hk : Storage.Known h ⟨k, a⟩) {g : Nat → Entity}
    (hs : ∀ a, (g a).storage = some ⟨k, a⟩) (ha : ∀ a, (g a).arguments = []) :
    Yields schedule h ((Eval.gets fun s => s.heap.cell k a) >>= fun c => Eval.alloc k c >>= fun a =>
      (pure (g a) : Eval Entity)) Entity.Known :=
  .bind (cell_yields hk) fun _ _ _ hc => new_yields _ hc hs ha

theorem copy_yields {e : Entity} (he : e.Known h) : Yields schedule h (copy e) Entity.Known := by
  unfold copy
  split
  case h_8 => exact .pure he
  all_goals exact detach_yields (he.storage _ rfl) (fun _ => rfl) fun _ => rfl

theorem constructCopy_yields (host : Host) (type : FlowType) {e : Entity} (he : e.Known h) :
    Yields schedule h (constructCopy host type e) Entity.Known :=
  .bind (copy_yields he) fun _ _ _ hc => value_yields (construct_yields host type hc)

theorem assign_yields (x : Option Variable) {lhs rhs : Entity} (hl : lhs.Known h) (hr : rhs.Known h) :
    Yields schedule h (assign x lhs rhs) fun _ _ => True := by
  refine .bind (gets_yields _) fun k _ hk _ => .bind (perform_yields ?_) fun _ _ _ _ => .pure trivial
  exact ⟨hl.mono hk, hr.mono hk⟩

/-! ### Operators, properties and member functions -/

theorem unaryOp_yields (op : UnaryOperator) {arg : Entity} (ha : arg.Known h) :
    Yields schedule h (unaryOp op arg) ResultKnown := by
  unfold unaryOp
  split
  next => exact .pure ha.result
  next =>
    exact .bind (gets_yields _) fun _ _ _ _ =>
      newResult_yields .integer allKnown_nil (fun _ => rfl) fun _ => rfl
  all_goals exact .pure (resultKnown_error _)

theorem Number.toEntity_yields (n : Number) : Yields schedule h n.toEntity Entity.Known := by
  cases n with
  | boolean b => exact new_yields .boolean allKnown_nil (fun _ => rfl) fun _ => rfl
  | integer i => exact new_yields .integer allKnown_nil (fun _ => rfl) fun _ => rfl
  | real r => exact new_yields .real allKnown_nil (fun _ => rfl) fun _ => rfl

theorem binaryOp_yields (op : BinaryOp) (self other : Entity) :
    Yields schedule h (binaryOp op self other) ResultKnown := by
  unfold binaryOp
  split
  iterate 2
    next =>
      refine .bind (gets_yields _) fun _ n _ _ => ?_
      cases n with
      | some n => exact .bind (Number.toEntity_yields n) fun _ _ _ he => .pure he.result
      | none => exact .pure (resultKnown_error _)
  next =>
    refine .ite (fun _ => ?_) fun _ => .pure (resultKnown_error _)
    split
    · exact .bind (gets_yields _) fun _ _ _ _ =>
        newResult_yields .boolean allKnown_nil (fun _ => rfl) fun _ => rfl
    · exact .pure (resultKnown_error _)
  next => exact .pure (resultKnown_error _)

theorem getProperty_yields {self : Entity} (hs : self.Known h) (name : String) :
    Yields schedule h (getProperty self name) ResultKnown := by
  have size : ∀ f : State → Int64, Yields schedule h (Eval.gets f >>= fun size =>
      Eval.alloc .integer size >>= fun a => (pure (.ok (.integer a)) : Eval EvalResult)) ResultKnown :=
    fun _ => .bind (gets_yields _) fun _ _ _ _ =>
      newResult_yields .integer allKnown_nil (fun _ => rfl) fun _ => rfl
  unfold getProperty
  split
  next => exact .ite (fun _ => size _) fun _ => .pure (resultKnown_error _)
  next k a =>
    refine .ite (fun _ => size _) fun _ => .ite (fun _ => .pure (known_of_plain rfl rfl).result)
      fun _ => ?_
    have found : Yields schedule h (Eval.gets fun s => (s.heap.cell .dictionary a).find? name)
        fun h e => ∀ x, e = some x → x.Known h := .gets fun hst x hx =>
      hst.cells _ _ (hs.storage _ rfl) _ (List.mem_map_of_mem (f := Prod.snd) (SortedMap.mem_of_find? hx))
    refine .bind found fun _ e _ he => ?_
    cases e with
    | some e => exact .pure (he e rfl).result
    | none => exact .pure (resultKnown_error _)
  next => exact .pure (resultKnown_error _)

theorem insert_yields (k : DictionaryKind) {a : Nat} (hd : Storage.Known h ⟨.dictionary, a⟩)
    {args : CallArguments} (ha : ArgumentsKnown h args) :
    Yields schedule h (insert k a args) ResultKnown := by
  unfold insert
  refine .ite (fun _ => .pure (resultKnown_error _)) fun _ => .ite (fun _ => .pure (resultKnown_error _))
    fun _ => ?_
  split
  next _ key _ value _ _ =>
    have hkey : (Entity.string key).Known h := ha _ (by simp)
    refine .bind (perform_yields ⟨hd, hkey.storage _ rfl, ha _ (by simp)⟩) fun _ _ _ _ => ?_
    exact .pure (known_of_plain rfl rfl).result
  next => exact .pure (resultKnown_error _)

theorem callMemFunction_yields {self : Entity} (hs : self.Known h) (name : String)
    {args : CallArguments} (ha : ArgumentsKnown h args) :
    Yields schedule h (callMemFunction self name args) ResultKnown := by
  unfold callMemFunction
  split
  · exact .ite (fun _ => insert_yields _ (hs.storage _ rfl) ha) fun _ => .pure (resultKnown_error _)
  · exact .pure (resultKnown_error _)

/-! ### Free functions and JSON -/

theorem represent_yields (host : Host) (e : Entity) :
    Yields schedule h (represent host e) fun _ _ => True := by
  refine .bind (gets_yields _) fun _ text _ _ => ?_
  cases text with
  | some text => exact .pure trivial
  | none => exact .throw _

theorem representAll_yields (host : Host) (es : List Entity) :
    Yields schedule h (representAll host es) fun _ _ => True := by
  induction es generalizing h with
  | nil => exact .pure trivial
  | cons e es ih =>
    exact .bind (represent_yields host e) fun _ _ _ _ => .bind ih fun _ _ _ _ => .pure trivial

theorem formatArgs_yields (host : Host) (args : CallArguments) :
    Yields schedule h (formatArgs host args) fun _ _ => True := by
  unfold formatArgs
  split
  next =>
    refine .bind (gets_yields _) fun _ _ _ _ => .ite (fun _ => .pure trivial) fun _ =>
      .bind (representAll_yields host _) fun _ _ _ _ => ?_
    split <;> exact .pure trivial
  next => exact .pure trivial

theorem callFreeFunction_yields (host : Host) (f : Builtin) (args : CallArguments) :
    Yields schedule h (callFreeFunction host f args) ResultKnown := by
  cases f with
  | println =>
    refine .bind (formatArgs_yields host args) fun _ text _ _ => ?_
    cases text <;> exact .bind (perform_yields trivial) fun _ _ _ _ =>
      .pure (known_of_plain rfl rfl).result
  | panic => exact .bind (representAll_yields host _) fun _ _ _ _ => .throw _
  | strFormat =>
    refine .bind (formatArgs_yields host args) fun _ text _ _ => ?_
    cases text with
    | ok text => exact newResult_yields .string allKnown_nil (fun _ => rfl) fun _ => rfl
    | error what => exact .pure (resultKnown_error _)

theorem requestToJson_yields (a : Nat) :
    Yields schedule h (requestToJson a) fun _ _ => True := by
  refine .bind (gets_yields _) fun _ message _ _ => ?_
  split
  · exact .pure trivial
  · exact .throw _

theorem mapKnown_empty : MapKnown h .empty := nofun

theorem mapKnown_insert {m : SortedMap String Entity} {key : String} {e : Entity}
    (hm : MapKnown h m) (he : e.Known h) : MapKnown h (m.insert key e) := by
  intro x hx
  obtain ⟨entry, hm', rfl⟩ := List.mem_map.mp hx
  rcases SortedMap.mem_insertEntries hm' with rfl | hm'
  · exact he
  · exact hm _ (List.mem_map_of_mem hm')

mutual

theorem fromJson_yields {h : List Action} : ∀ v : Json,
    Yields schedule h (fromJson v) fun h e => ∀ x, e = some x → x.Known h
  | .null => by
    rw [fromJson]
    exact .pure nofun
  | .bool _ => by
    rw [fromJson]
    exact someNew_yields .boolean allKnown_nil (fun _ => rfl) fun _ => rfl
  | .int64 _ | .uint64 _ => by
    rw [fromJson]
    exact someNew_yields .integer allKnown_nil (fun _ => rfl) fun _ => rfl
  | .double _ => by
    rw [fromJson]
    exact someNew_yields .real allKnown_nil (fun _ => rfl) fun _ => rfl
  | .string _ => by
    rw [fromJson]
    exact someNew_yields .string allKnown_nil (fun _ => rfl) fun _ => rfl
  | .array vs => by
    rw [fromJson]
    exact .bind (fromJsonArray_yields vs) fun _ _ _ hes =>
      someNew_yields .array hes (fun _ => rfl) fun _ => rfl
  | .object members => by
    rw [fromJson]
    exact .bind (fromJsonObject_yields mapKnown_empty members) fun _ _ _ hm =>
      someNew_yields .dictionary hm (fun _ => rfl) fun _ => rfl

theorem fromJsonArray_yields {h : List Action} : ∀ vs : List Json,
    Yields schedule h (fromJsonArray vs) AllKnown
  | [] => by
    rw [fromJsonArray]
    exact .pure allKnown_nil
  | v :: vs => by
    rw [fromJsonArray]
    refine .bind (fromJson_yields v) fun _ e _ he => .bind (fromJsonArray_yields vs)
      fun _ es hk hes => .pure fun x hx => ?_
    rcases List.mem_append.mp hx with hx | hx
    · exact (he x (Option.mem_toList.mp hx)).mono hk
    · exact hes x hx

theorem fromJsonObject_yields {h : List Action} {entries : SortedMap String Entity}
    (hm : MapKnown h entries) : ∀ members : List (String × Json),
    Yields schedule h (fromJsonObject entries members) MapKnown
  | [] => by
    rw [fromJsonObject]
    exact .pure hm
  | (_, v) :: members => by
    rw [fromJsonObject]
    refine .bind (fromJson_yields v) fun _ e hk he => ?_
    cases e with
    | none => exact fromJsonObject_yields (AllKnown.mono hm hk) members
    | some e => exact fromJsonObject_yields (mapKnown_insert (AllKnown.mono hm hk) (he e rfl)) members

end

end Evaluations

end EzCpp.Flow
