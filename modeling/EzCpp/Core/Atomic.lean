import EzCpp.Lib.Locks

/-!
# Atomic

An `Atomic` is an object with a mutex. Its functions lock, read or write the object field by field, and
unlock where their guards are destroyed, the newest guard first; several threads call them, and any step
of one may come between two steps of another.

A copy assignment has two objects to lock. It locks the one with the lower address first, so no two
assignments wait for each other (`calls_return`), and an object assigned to itself is not locked at all.
A move and a construction lock less: the object that is moved from, and the one under construction, must
be the calling thread's own (`Operation.Apart`). Then every call is as good as one that is executed at one
instant between its beginning and its end (`linearizable`).
-/

namespace EzCpp.Core.Atomic

open EzCpp.Lib EzCpp.Lib.Locks

abbrev Address := Nat

/-- The mode in which `lock_shared` locks a mutex: `std::mutex` has one mode only. -/
structure LockHelper where
  lockShared : Mode

def LockHelper.sharedMutex : LockHelper := ⟨.shared⟩

def LockHelper.mutex : LockHelper := ⟨.exclusive⟩

/-- The fields of the type of the objects, in the order in which they are copied. -/
structure Layout (κ : Type) where
  fields : List κ
  nodup : fields.Nodup
  complete : ∀ k, k ∈ fields

/-- A step of a function that is called on an object, with the locals of its thread. -/
inductive FieldAccess (κ ω ρ : Type)
  | load (k : κ) (f : ω → ρ → ρ)
  | store (k : κ) (f : ρ → ω)

inductive Operation (κ ω ρ : Type)
  /-- `read`, and the `operator->` of a constant object -/
  | read (this : Address) (f : List (κ × (ω → ρ → ρ)))
  /-- `edit`, and the `operator->` of another -/
  | edit (this : Address) (f : List (FieldAccess κ ω ρ))
  /-- `operator=(const Atomic&)` -/
  | assign (this rhs : Address)
  /-- `operator=(Atomic&&)` -/
  | moveAssign (this rhs : Address)
  /-- `Atomic(const Atomic&)` -/
  | copy (this rhs : Address)
  /-- `Atomic(Atomic&&)` -/
  | move (this rhs : Address)

/-- The registers of a thread: its locals, and the field that is being copied. -/
structure Registers (ω ρ : Type) where
  locals : ρ
  copied : Option ω := none

variable {τ κ ω ρ : Type}

abbrev Object (κ ω : Type) := κ → ω

abbrev ObjectAccess (κ ω ρ : Type) := Access Address (Object κ ω) (Registers ω ρ)

section Steps

variable [DecidableEq κ] (layout : Layout κ) (moved : ω → ω) (helper : LockHelper)

def FieldAccess.on (this : Address) : FieldAccess κ ω ρ → ObjectAccess κ ω ρ
  | .load k f => .load this fun object r => { r with locals := f (object k) r.locals }
  | .store k f => .store this fun r object => Function.update object k (f r.locals)

/-- The field that was copied is written. -/
def paste (k : κ) (r : Registers ω ρ) (object : Object κ ω) : Object κ ω :=
  r.copied.elim object fun value => Function.update object k value

/-- `m_data = rhs.m_data` -/
def copyData (this rhs : Address) : List (ObjectAccess κ ω ρ) :=
  layout.fields.flatMap fun k =>
    [.load rhs fun object r => { r with copied := some (object k) }, .store this (paste k)]

/-- `m_data = std::move(rhs.m_data)`; `moved` is what a move leaves of a field. -/
def moveData (this rhs : Address) : List (ObjectAccess κ ω ρ) :=
  layout.fields.flatMap fun k =>
    [.load rhs fun object r => { r with copied := some (object k) }, .store this (paste k),
      .store rhs fun r => paste k { r with copied := r.copied.map moved }]

/-- What a function locks, in this order, and what it does then. -/
def Operation.body : Operation κ ω ρ → Section Address (Object κ ω) (Registers ω ρ)
  | .read this f => ⟨[(this, helper.lockShared)], f.map fun g => (FieldAccess.load g.1 g.2).on this⟩
  | .edit this f => ⟨[(this, .exclusive)], f.map (FieldAccess.on this)⟩
  | .assign this rhs =>
    if this < rhs then
      ⟨[(this, .exclusive), (rhs, helper.lockShared)], copyData layout this rhs⟩
    else if rhs < this then
      ⟨[(rhs, helper.lockShared), (this, .exclusive)], copyData layout this rhs⟩
    else ⟨[], []⟩
  | .moveAssign this rhs => ⟨[(this, .exclusive)], moveData layout moved this rhs⟩
  | .copy this rhs => ⟨[(rhs, helper.lockShared)], copyData layout this rhs⟩
  | .move this rhs => ⟨[], moveData layout moved this rhs⟩

/-- `operator=(auto&& val)` -/
def Operation.set (this : Address) (value : Object κ ω) : Operation κ ω ρ :=
  .edit this (layout.fields.map fun k => .store k fun _ => value k)

end Steps

/-! ## The calls, as a whole -/

section Whole

variable [DecidableEq κ] (moved : ω → ω)

def FieldAccess.apply : FieldAccess κ ω ρ → Object κ ω × ρ → Object κ ω × ρ
  | .load k f, (object, r) => (object, f (object k) r)
  | .store k f, (object, r) => (Function.update object k (f r), r)

/-- What a call does to the objects and to the locals of its thread. -/
def Operation.apply (c : (Address → Object κ ω) × ρ) :
    Operation κ ω ρ → (Address → Object κ ω) × ρ
  | .read this f => (c.1, f.foldl (fun r g => g.2 (c.1 this g.1) r) c.2)
  | .edit this f =>
    let d := f.foldl (fun d g => g.apply d) (c.1 this, c.2)
    (Function.update c.1 this d.1, d.2)
  | .assign this rhs | .copy this rhs => (Function.update c.1 this (c.1 rhs), c.2)
  | .moveAssign this rhs | .move this rhs =>
    (Function.update (Function.update c.1 this (c.1 rhs)) rhs fun k => moved (c.1 rhs k), c.2)

/-- Threads that have calls to make. -/
structure Threads (τ κ ω ρ : Type) where
  objects : Address → Object κ ω
  locals : τ → ρ
  calls : τ → List (Operation κ ω ρ)

/-- The next call of a thread, as a whole. -/
def Threads.call [DecidableEq τ] (T : Threads τ κ ω ρ) (t : τ) : Threads τ κ ω ρ :=
  match T.calls t with
  | [] => T
  | o :: calls =>
    let c := o.apply moved (T.objects, T.locals t)
    { objects := c.1
      locals := Function.update T.locals t c.2
      calls := Function.update T.calls t calls }

def Threads.callAll [DecidableEq τ] (T : Threads τ κ ω ρ) (order : List τ) : Threads τ κ ω ρ :=
  order.foldl (Threads.call moved) T

end Whole

/-! ## What the steps of a call come to -/

section Steps

variable [DecidableEq κ] {layout : Layout κ} {moved : ω → ω} {helper : LockHelper}
  {this rhs : Address}

theorem performAll_on (f : List (FieldAccess κ ω ρ)) (m : Address → Object κ ω)
    (r : Registers ω ρ) : performAll (f.map (FieldAccess.on this)) (m, r) =
      (Function.update m this (f.foldl (fun d g => g.apply d) (m this, r.locals)).1,
        { r with locals := (f.foldl (fun d g => g.apply d) (m this, r.locals)).2 }) := by
  induction f generalizing m r with
  | nil => simp
  | cons g f ih =>
    cases g with
    | load k f => exact ih m _
    | store k f => simp [FieldAccess.on, Access.perform, FieldAccess.apply, ih]

theorem performAll_read (f : List (κ × (ω → ρ → ρ))) (m : Address → Object κ ω)
    (r : Registers ω ρ) :
    performAll (f.map fun g => (FieldAccess.load g.1 g.2).on this) (m, r) =
      (m, { r with locals := f.foldl (fun r g => g.2 (m this g.1) r) r.locals }) := by
  induction f generalizing r with
  | nil => rfl
  | cons g f ih => exact ih _

/-- Copying some of the fields. -/
theorem performAll_copy (this rhs : Address) (fields : List κ) (m : Address → Object κ ω) (r : Registers ω ρ) :
    let c := performAll (fields.flatMap fun k =>
      [.load rhs fun object r => { r with copied := some (object k) }, .store this (paste k)]) (m, r)
    c.1 = Function.update m this (fun k => if k ∈ fields then m rhs k else m this k) ∧
      c.2.locals = r.locals := by
  induction fields generalizing m r with
  | nil => simp
  | cons k fields ih =>
    simp only [List.flatMap_cons, List.cons_append, List.nil_append, performAll_cons]
    obtain ⟨hm, hr⟩ := ih (Function.update m this (Function.update (m this) k (m rhs k)))
      { r with copied := some (m rhs k) }
    refine ⟨hm.trans ?_, hr⟩
    funext a j
    rcases eq_or_ne a this with rfl | ha
    · rcases eq_or_ne rhs a with rfl | hrhs
      · by_cases hj : j = k <;> simp [hj]
      · by_cases hj : j = k <;> simp [hj, Function.update_of_ne hrhs]
    · simp [Function.update_of_ne ha]

/-- Moving some of the fields, none of them twice. -/
theorem performAll_move (moved : ω → ω) (this rhs : Address) (fields : List κ) (nodup : fields.Nodup) (m : Address → Object κ ω)
    (r : Registers ω ρ) :
    let c := performAll (fields.flatMap fun k =>
      [.load rhs fun object r => { r with copied := some (object k) }, .store this (paste k),
        .store rhs fun r => paste k { r with copied := r.copied.map moved }]) (m, r)
    c.1 = Function.update
        (Function.update m this fun k => if k ∈ fields then m rhs k else m this k) rhs
        (fun k => if k ∈ fields then moved (m rhs k) else m rhs k) ∧
      c.2.locals = r.locals := by
  induction fields generalizing m r with
  | nil => simp
  | cons k fields ih =>
    obtain ⟨hk, nodup⟩ := List.nodup_cons.mp nodup
    simp only [List.flatMap_cons, List.cons_append, List.nil_append, performAll_cons]
    obtain ⟨hm, hr⟩ := ih nodup
      (Function.update (Function.update m this (Function.update (m this) k (m rhs k))) rhs
        (Function.update (Function.update m this (Function.update (m this) k (m rhs k)) rhs) k
          (moved (m rhs k)))) { r with copied := some (m rhs k) }
    refine ⟨hm.trans ?_, hr⟩
    funext a j
    rcases eq_or_ne rhs this with rfl | hne
    · rcases eq_or_ne a rhs with rfl | ha
      · by_cases hj : j = k
        · subst hj
          simp [hk]
        · simp [hj]
      · simp [Function.update_of_ne ha]
    · rcases eq_or_ne a rhs with rfl | ha
      · by_cases hj : j = k
        · subst hj
          simp [hk, Function.update_of_ne hne]
        · simp [hj, Function.update_of_ne hne]
      · rcases eq_or_ne a this with rfl | ha'
        · by_cases hj : j = k
          · subst hj
            simp [hk, Function.update_of_ne ha]
          · simp [hj, Function.update_of_ne ha, Function.update_of_ne hne]
        · simp [Function.update_of_ne ha, Function.update_of_ne ha']

/-- **The steps of a call come to the call as a whole.** -/
theorem performAll_body (layout : Layout κ) (moved : ω → ω) (helper : LockHelper) (o : Operation κ ω ρ) (m : Address → Object κ ω) (r : Registers ω ρ) :
    let c := performAll (o.body layout moved helper).body (m, r)
    c.1 = (o.apply moved (m, r.locals)).1 ∧ c.2.locals = (o.apply moved (m, r.locals)).2 := by
  have hcopy (this rhs : Address) := performAll_copy this rhs layout.fields m r
  have hmove (this rhs : Address) := performAll_move moved this rhs layout.fields layout.nodup m r
  simp only [layout.complete, if_true] at hcopy hmove
  cases o with
  | read this f => exact ⟨congrArg Prod.fst (performAll_read f m r),
      congrArg (fun c => c.2.locals) (performAll_read f m r)⟩
  | edit this f => exact ⟨congrArg Prod.fst (performAll_on f m r),
      congrArg (fun c => c.2.locals) (performAll_on f m r)⟩
  | assign this rhs =>
    rcases lt_trichotomy this rhs with hlt | rfl | hgt
    · rw [Operation.body, if_pos hlt]
      exact hcopy this rhs
    · simp [Operation.body, Operation.apply]
    · rw [Operation.body, if_neg hgt.not_gt, if_pos hgt]
      exact hcopy this rhs
  | moveAssign this rhs => exact hmove this rhs
  | copy this rhs => exact hcopy this rhs
  | move this rhs => exact hmove this rhs

/-! ## What a call locks -/

/-- **The lower address is locked first.** -/
theorem ordered_body (o : Operation κ ω ρ) : Ordered (o.body layout moved helper) := by
  cases o with
  | assign this rhs =>
    rw [Operation.body]
    split
    next hlt => simpa [Ordered] using hlt
    · split
      next hlt => simpa [Ordered] using hlt
      · simp [Ordered]
  | _ => simp [Ordered, Operation.body]

/-- The object is the thread's own, or nobody's own. -/
def Reachable (owner : Address → Option τ) (t : τ) (a : Address) : Prop :=
  owner a = some t ∨ owner a = none

/-- What is not locked is the thread's own: an object under construction, and one that is moved from. -/
def Operation.Apart (owner : Address → Option τ) (t : τ) : Operation κ ω ρ → Prop
  | .read this _ | .edit this _ => Reachable owner t this
  | .assign this rhs => Reachable owner t this ∧ Reachable owner t rhs
  | .moveAssign this rhs => Reachable owner t this ∧ owner rhs = some t
  | .copy this rhs => owner this = some t ∧ Reachable owner t rhs
  | .move this rhs => owner this = some t ∧ owner rhs = some t

variable {owner : Address → Option τ} {t : τ} {x : Section Address (Object κ ω) (Registers ω ρ)}

theorem wellLocked_copy (hbody : x.body = copyData layout this rhs) (hs : MayStore owner t x this)
    (hl : MayLoad owner t x rhs) : WellLocked owner t x := by
  intro y hy
  rw [hbody, copyData, List.mem_flatMap] at hy
  obtain ⟨k, -, hy⟩ := hy
  simp only [List.mem_cons, List.not_mem_nil, or_false] at hy
  rcases hy with rfl | rfl
  · exact hl
  · exact hs

theorem wellLocked_move (hbody : x.body = moveData layout moved this rhs)
    (hs : MayStore owner t x this) (hrhs : owner rhs = some t) : WellLocked owner t x := by
  intro y hy
  rw [hbody, moveData, List.mem_flatMap] at hy
  obtain ⟨k, -, hy⟩ := hy
  simp only [List.mem_cons, List.not_mem_nil, or_false] at hy
  rcases hy with rfl | rfl | rfl
  · exact .inl hrhs
  · exact hs
  · exact .inl hrhs

omit [DecidableEq κ] in
theorem Reachable.load {a : Address} {m : Mode} (h : Reachable owner t a) (ha : (a, m) ∈ x.locks) :
    MayLoad owner t x a :=
  h.imp_right fun h => ⟨h, m, ha⟩

omit [DecidableEq κ] in
theorem Reachable.store {a : Address} (h : Reachable owner t a) (ha : (a, .exclusive) ∈ x.locks) :
    MayStore owner t x a :=
  h.imp_right fun h => ⟨h, ha⟩

theorem wellLocked_body {o : Operation κ ω ρ} (h : o.Apart owner t) :
    WellLocked owner t (o.body layout moved helper) := by
  cases o with
  | read this f =>
    intro y hy
    obtain ⟨g, -, rfl⟩ := List.mem_map.mp hy
    exact Reachable.load h List.mem_cons_self
  | edit this f =>
    intro y hy
    obtain ⟨g, -, rfl⟩ := List.mem_map.mp hy
    cases g with
    | load k f => exact Reachable.load h List.mem_cons_self
    | store k f => exact Reachable.store h List.mem_cons_self
  | assign this rhs =>
    rw [Operation.body]
    split
    · exact wellLocked_copy rfl (h.1.store (by simp)) (h.2.load (m := helper.lockShared) (by simp))
    · split
      · exact wellLocked_copy rfl (h.1.store (by simp)) (h.2.load (m := helper.lockShared) (by simp))
      · exact fun y hy => absurd hy List.not_mem_nil
  | moveAssign this rhs => exact wellLocked_move rfl (h.1.store List.mem_cons_self) h.2
  | copy this rhs => exact wellLocked_copy rfl (.inl h.1) (h.2.load List.mem_cons_self)
  | move this rhs => exact wellLocked_move rfl (.inl h.1) h.2

end Steps

/-! ## The law -/

section Law

variable [DecidableEq τ] [DecidableEq κ] (layout : Layout κ) (moved : ω → ω) (helper : LockHelper)

/-- What the threads execute. -/
def Threads.sections (T : Threads τ κ ω ρ) :
    Serial τ Address (Object κ ω) (Registers ω ρ) where
  memory := T.objects
  registers t := ⟨T.locals t, none⟩
  todo t := (T.calls t).map (Operation.body layout moved helper)

/-- The threads, before any of them begins. -/
def Threads.begin (T : Threads τ κ ω ρ) : State τ Address (Object κ ω) (Registers ω ρ) :=
  start (T.sections layout moved helper)

/-- The sections are where the calls are. -/
structure Matches (S : Serial τ Address (Object κ ω) (Registers ω ρ)) (T : Threads τ κ ω ρ) :
    Prop where
  objects : S.memory = T.objects
  locals : ∀ t, (S.registers t).locals = T.locals t
  calls : ∀ t, S.todo t = (T.calls t).map (Operation.body layout moved helper)

variable {layout moved helper} {S : Serial τ Address (Object κ ω) (Registers ω ρ)}
  {T : Threads τ κ ω ρ} {s : State τ Address (Object κ ω) (Registers ω ρ)} {t : τ} {es : List τ}
  {owner : Address → Option τ}

theorem Matches.call (h : Matches layout moved helper S T) (t : τ) :
    Matches layout moved helper (S.execute t) (T.call moved t) := by
  unfold Serial.execute Threads.call
  rw [h.calls t]
  cases hc : T.calls t with
  | nil => exact h
  | cons o calls =>
    obtain ⟨hm, hr⟩ := performAll_body layout moved helper o S.memory (S.registers t)
    rw [h.objects, h.locals t] at hm hr
    refine ⟨?_, fun u => ?_, fun u => ?_⟩
    · simpa [h.objects] using hm
    · rcases eq_or_ne u t with rfl | hu
      · simpa [h.objects] using hr
      · simpa [Function.update_of_ne hu] using h.locals u
    · rcases eq_or_ne u t with rfl | hu
      · simp
      · simpa [Function.update_of_ne hu] using h.calls u

theorem matches_serial (T : Threads τ κ ω ρ) (order : List τ) :
    Matches layout moved helper (serial (T.sections layout moved helper) order)
      (T.callAll moved order) := by
  induction order using List.reverseRecOn with
  | nil => exact ⟨rfl, fun _ => rfl, fun _ => rfl⟩
  | append_singleton order t ih =>
    rw [serial, Threads.callAll, List.foldl_append, List.foldl_append]
    exact ih.call t

/-- **What the threads have come to is what the calls come to as a whole**, one after another: those that
have ended, in the order in which they ended, which later calls do not change. -/
structure Linearized (moved : ω → ω) (owner : Address → Option τ) (T : Threads τ κ ω ρ)
    (s : State τ Address (Object κ ω) (Registers ω ρ)) : Prop where
  /-- an object that no call is writing to -/
  objects : ∀ a, (∀ t, ¬ Writing owner s t a) →
    s.memory a = (T.callAll moved s.order).objects a
  /-- a thread between two calls -/
  locals : ∀ t, (s.agents t).phase = .idle →
    (s.agents t).registers.locals = (T.callAll moved s.order).locals t
  /-- no call is executed twice -/
  calls : ∀ t, s.order.count t + (s.agents t).left = (T.calls t).length
  later : ∀ ds s', runs step s ds = some s' → s.order <+: s'.order
  /-- nobody else has locked what a thread has locked exclusively -/
  exclusive : ∀ a m t u, (a, .exclusive) ∈ (s.agents t).held → (a, m) ∈ (s.agents u).held → u = t

theorem linearizable (h : ∀ t, ∀ o ∈ T.calls t, o.Apart owner t)
    (hr : runs step (T.begin layout moved helper) es = some s) : Linearized moved owner T s := by
  have hlocked : ∀ t, ∀ x ∈ (T.sections layout moved helper).todo t, WellLocked owner t x := by
    intro t x hx
    obtain ⟨o, ho, rfl⟩ := List.mem_map.mp hx
    exact wellLocked_body (h t o ho)
  obtain ⟨hobjects, hthreads⟩ := serializable hlocked hr
  have hmatches : Matches layout moved helper (serial (T.sections layout moved helper) s.order)
      (T.callAll moved s.order) := matches_serial T s.order
  refine ⟨fun a ha => ?_, fun t ht => ?_, fun t => ?_, fun _ _ => order_prefix, ?_⟩
  · rw [hobjects a ha, hmatches.objects]
  · rw [hthreads t ht, hmatches.locals]
  · rw [count_left hr, Threads.sections, List.length_map]
  · intro a m t u
    exact (follows_runs hlocked hr).locked.eq_of_exclusive

/-- Two threads assign two objects to each other. -/
def exchange : Threads Bool Unit Nat Unit where
  objects a _ := a
  locals _ := ()
  calls t := if t then [.assign 0 1] else [.assign 1 0]

theorem complete_unit : ∀ k : Unit, k ∈ [()] := fun _ => List.mem_cons_self

def unitLayout : Layout Unit := ⟨[()], List.nodup_singleton _, complete_unit⟩

/-- The one who comes second waits, although it is the other object that it writes. -/
def turns : List Bool :=
  [true, false, true] ++ List.replicate 7 true ++ [false, true] ++ List.replicate 8 false

theorem turns_isSome : (runs step (exchange.begin unitLayout id .sharedMutex) turns).isSome = true := by
  decide

theorem linearizable_exchange : Linearized id (fun _ => none) exchange
    ((runs step (exchange.begin unitLayout id .sharedMutex) turns).get turns_isSome) := by
  refine linearizable (fun t o ho => ?_) (Option.some_get turns_isSome).symm
  cases t with
  | true =>
    obtain rfl := List.mem_singleton.mp ho
    exact ⟨.inr rfl, .inr rfl⟩
  | false =>
    obtain rfl := List.mem_singleton.mp ho
    exact ⟨.inr rfl, .inr rfl⟩

/-- **Every call returns, whatever the addresses**: where no thread can go on, all have made their calls,
and no thread takes more steps than its calls have. -/
theorem calls_return (hr : runs step (T.begin layout moved helper) es = some s) :
    ((∀ t, step s t = none) →
        ∀ t, (s.agents t).finished ∧ s.order.count t = (T.calls t).length) ∧
      ∀ t, es.count t ≤ ((T.calls t).map fun o => (o.body layout moved helper).steps).sum := by
  have hordered : ∀ t, ∀ x ∈ (T.sections layout moved helper).todo t, Ordered x := by
    intro t x hx
    obtain ⟨o, -, rfl⟩ := List.mem_map.mp hx
    exact ordered_body o
  refine ⟨fun hs t => ?_, fun t => ?_⟩
  · have hf := finished_of_stuck hordered hr hs t
    refine ⟨hf, ?_⟩
    have hcount := count_left hr t
    simpa [Agent.left, hf.1, hf.2, Threads.sections] using hcount
  have hcount := count_le_work hordered hr t
  rwa [Threads.sections, List.map_map] at hcount

theorem calls_return_exchange :
    let s := (runs step (exchange.begin unitLayout id .sharedMutex) turns).get turns_isSome
    ((∀ t, step s t = none) →
        ∀ t, (s.agents t).finished ∧ s.order.count t = (exchange.calls t).length) ∧
      ∀ t, turns.count t ≤ ((exchange.calls t).map fun o => (o.body unitLayout id .sharedMutex).steps).sum :=
  calls_return (Option.some_get turns_isSome).symm

end Law

end EzCpp.Core.Atomic
