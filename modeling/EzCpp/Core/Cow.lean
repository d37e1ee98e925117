import EzCpp.Lib.Runs

/-!
# Copy on write

`Cow<T>` shares an object with other handles until it is edited. The object may be of a class that
derives from `T`; a copy is made by the copy constructor of `T`, the class of the handle, which
copies the `T` part alone.

The reference semantics is the one `Cow` is to have, with an object of its own for each handle
(`Values`). The handles have it as long as no step copies an object by a class other than its own
(`Slices`).
-/

namespace EzCpp.Core.Cow

open EzCpp.Lib

/-- Classes, and their objects. -/
structure Classes (Ty Object : Type) where
  /-- `std::is_base_of_v`, the second class derives from the first -/
  isBaseOf : Ty → Ty → Bool
  /-- The dynamic type. -/
  type : Object → Ty
  /-- `T{object}` with the copy constructor of a class `T` -/
  copyAs : Ty → Object → Object
  type_copyAs (T : Ty) (o : Object) : type (copyAs T o) = T
  copyAs_type (o : Object) : copyAs (type o) o = o

/-- A `Cow<U>`, or a value of type `U`, goes where a `Cow<T>` is wanted. -/
def Classes.converts {Ty Object : Type} [DecidableEq Ty] (C : Classes Ty Object) (T U : Ty) : Bool :=
  T = U || C.isBaseOf T U

/-- What is done to an object through a reference: it keeps its class. -/
structure Edit {Ty Object : Type} (C : Classes Ty Object) where
  apply : Object → Object
  type_apply (o : Object) : C.type (apply o) = C.type o

/-- A `Cow<type>`. It has no data once it was moved from, or destroyed. -/
structure Handle (Ty : Type) where
  type : Ty
  data : Option Nat
deriving DecidableEq

/-- The handles, in the order they were made, and all the objects there have been. -/
structure State (Ty Object : Type) where
  handles : List (Handle Ty)
  objects : List Object
deriving DecidableEq

section Model

variable {Ty Object : Type} [DecidableEq Ty] (C : Classes Ty Object)

inductive Op
  /-- `Cow()`, `Cow(Inplace, args)`: an object made by a constructor of `T` -/
  | construct (T : Ty) (o : Object)
  /-- `Cow(DerivedFrom<T> auto&&)`, `Cow(T&&)`, `Cow(T&)`, `Cow(const T&)` -/
  | fromValue (T : Ty) (o : Object) (lvalue : Bool)
  | copy (T : Ty) (source : Nat)
  | move (T : Ty) (source : Nat)
  | assignHandle (i source : Nat)
  | moveHandle (i source : Nat)
  /-- `operator=(auto&& new_val)`; what it does to the object is the assignment of `T`. -/
  | assign (i : Nat) (newVal : Edit C)
  | edit (i : Nat) (f : Edit C)
  | detach (i : Nat)
  | destroy (i : Nat)

namespace State

variable {C} (s : State Ty Object)

/-- A handle that is in use, and the address of its object. -/
def deref (i : Nat) : Option (Ty × Nat) := do
  let h ← s.handles[i]?
  let a ← h.data
  return (h.type, a)

/-- `use_count` of a `std::shared_ptr` to this object -/
def useCount (a : Nat) : Nat := s.handles.countP fun h => h.data = some a

def isUnique (a : Nat) : Bool := s.useCount a = 1

/-- A handle with an object of its own. -/
def make (T : Ty) (o : Object) : State Ty Object where
  handles := s.handles ++ [⟨T, some s.objects.length⟩]
  objects := s.objects ++ [o]

/-- `m_data = data` -/
def setData (i : Nat) (T : Ty) (data : Option Nat) : State Ty Object :=
  { s with handles := s.handles.set i ⟨T, data⟩ }

variable (C)

/-- A value is bound to `DerivedFrom<T> auto&&` when it is an rvalue. The type of an lvalue is
deduced as a reference, which derives from nothing; so it is taken by `T&`, and its `T` part is
copied. -/
def fromValue (T : Ty) (o : Object) (lvalue : Bool) : State Ty Object :=
  s.make T (if lvalue then C.copyAs T o else o)

def detach (i : Nat) : Option (State Ty Object) := do
  let (T, a) ← s.deref i
  let o ← s.objects[a]?
  let s' := { s with objects := s.objects ++ [C.copyAs T o] }
  return s'.setData i T (some s.objects.length)

def edit (i : Nat) (f : Edit C) : Option (State Ty Object) := do
  let (_, a) ← s.deref i
  let s ← if s.isUnique a then some s else s.detach C i
  let (_, a) ← s.deref i
  let o ← s.objects[a]?
  return { s with objects := s.objects.set a (f.apply o) }

end State

/-- One operation, where it compiles and uses no handle that was moved from. -/
def step (s : State Ty Object) : Op C → Option (State Ty Object)
  | .construct T o => if C.type o = T then some (s.make T o) else none
  | .fromValue T o lvalue => if C.converts T (C.type o) then some (s.fromValue C T o lvalue) else none
  | .copy T j => do
    let (U, a) ← s.deref j
    if C.converts T U then return { s with handles := s.handles ++ [⟨T, some a⟩] } else none
  | .move T j => do
    let (U, a) ← s.deref j
    if C.converts T U then
      let s := s.setData j U none
      return { s with handles := s.handles ++ [⟨T, some a⟩] }
    else none
  | .assignHandle i j => do
    let (T, _) ← s.deref i
    let (U, a) ← s.deref j
    if C.converts T U then return s.setData i T (some a) else none
  | .moveHandle i j => do
    let (T, _) ← s.deref i
    let (U, a) ← s.deref j
    if C.converts T U then return (s.setData j U none).setData i T (some a) else none
  | .assign i newVal => s.edit C i newVal
  | .edit i f => s.edit C i f
  | .detach i => s.detach C i
  | .destroy i => do
    let h ← s.handles[i]?
    return s.setData i h.type none

def State.init : State Ty Object := ⟨[], []⟩

/-! ## Values -/

/-- What each handle would be with an object of its own. -/
abbrev Values (Ty Object : Type) := List (Ty × Option Object)

namespace Values

variable {C} (v : Values Ty Object)

def get (i : Nat) : Option (Ty × Object) := do
  let (T, o) ← v[i]?
  let o ← o
  return (T, o)

variable (C)

def step : Op C → Option (Values Ty Object)
  | .construct T o => if C.type o = T then some (v ++ [(T, some o)]) else none
  | .fromValue T o _ => if C.converts T (C.type o) then some (v ++ [(T, some o)]) else none
  | .copy T j => do
    let (U, o) ← get v j
    if C.converts T U then return v ++ [(T, some o)] else none
  | .move T j => do
    let (U, o) ← get v j
    if C.converts T U then return v.set j (U, none) ++ [(T, some o)] else none
  | .assignHandle i j => do
    let (T, _) ← get v i
    let (U, o) ← get v j
    if C.converts T U then return v.set i (T, some o) else none
  | .moveHandle i j => do
    let (T, _) ← get v i
    let (U, o) ← get v j
    if C.converts T U then return (v.set j (U, none)).set i (T, some o) else none
  | .assign i newVal => do
    let (T, o) ← get v i
    return v.set i (T, some (newVal.apply o))
  | .edit i f => do
    let (T, o) ← get v i
    return v.set i (T, some (f.apply o))
  | .detach i => do
    let _ ← get v i
    return v
  | .destroy i => do
    let (T, _) ← v[i]?
    return v.set i (T, none)

end Values

end Model

/-! ## The values of the handles -/

section Sharing

variable {Ty Object : Type}

namespace State

variable {s s' : State Ty Object} {i a : Nat} {T : Ty} {o : Object}

/-- What is observed through each handle. -/
def values (s : State Ty Object) : Values Ty Object :=
  s.handles.map fun h => (h.type, h.data.bind fun a => s.objects[a]?)

structure Valid (s : State Ty Object) : Prop where
  lt : ∀ h ∈ s.handles, ∀ a ∈ h.data, a < s.objects.length

theorem deref_eq_some : s.deref i = some (T, a) ↔ s.handles[i]? = some ⟨T, some a⟩ := by
  constructor
  · intro h
    obtain ⟨⟨U, data⟩, hi, h⟩ := Option.bind_eq_some_iff.mp h
    obtain ⟨b, hb, h⟩ := Option.bind_eq_some_iff.mp h
    cases hb
    cases h
    exact hi
  · intro h
    rw [deref, h]
    rfl

theorem Valid.object (hv : Valid s) (h : s.deref i = some (T, a)) : ∃ o, s.objects[a]? = some o :=
  ⟨_, List.getElem?_eq_getElem (hv.lt _ (List.mem_of_getElem? (deref_eq_some.mp h)) a rfl)⟩

/-- A handle in use has a value. -/
theorem get_values (h : s.deref i = some (T, a)) (ho : s.objects[a]? = some o) :
    s.values.get i = some (T, o) := by
  have hi : s.values[i]? = some (T, some o) := by
    rw [values, List.getElem?_map, deref_eq_some.mp h, Option.map_some, Option.bind_some, ho]
  rw [Values.get, hi]
  rfl

theorem get_values_eq_none (h : s.deref i = none) : s.values.get i = none := by
  unfold deref at h
  unfold Values.get values
  rw [List.getElem?_map]
  cases hi : s.handles[i]? with
  | none => rfl
  | some handle =>
    obtain ⟨U, data⟩ := handle
    cases data with
    | none => rfl
    | some a =>
      rw [hi] at h
      cases h

/-- More objects change no value. -/
theorem values_append (hv : Valid s) (objects : List Object) :
    values { s with objects := s.objects ++ objects } = s.values := by
  refine List.map_congr_left fun h hh => ?_
  cases hd : h.data with
  | none => rfl
  | some a =>
    have hlt := hv.lt h hh a (by rw [hd]; rfl)
    simp only [Option.bind_some, List.getElem?_append_left hlt]

theorem values_push (hv : Valid s) (T : Ty) (o : Object) :
    (s.make T o).values = s.values ++ [(T, some o)] := by
  have happend := values_append hv [o]
  simp only [values] at happend
  simp [values, make, happend]

theorem values_setData (i : Nat) (T : Ty) (data : Option Nat) :
    (s.setData i T data).values = s.values.set i (T, data.bind fun a => s.objects[a]?) := by
  unfold values setData
  rw [List.map_set]

theorem values_pushHandle (T : Ty) (data : Option Nat) :
    values { s with handles := s.handles ++ [⟨T, data⟩] } =
      s.values ++ [(T, data.bind fun a => s.objects[a]?)] := by
  simp [values]

/-- An object that one handle alone has is the value of that handle alone. -/
theorem values_write (hi : s.handles[i]? = some ⟨T, some a⟩) (ho : s.objects[a]? = some o)
    (honly : ∀ j U, s.handles[j]? = some ⟨U, some a⟩ → j = i) (o' : Object) :
    values { s with objects := s.objects.set a o' } = s.values.set i (T, some o') := by
  have hlt : a < s.objects.length := (List.getElem?_eq_some_iff.mp ho).1
  refine List.ext_getElem? fun j => ?_
  simp only [values, List.getElem?_map, List.getElem?_set, List.length_map]
  by_cases hj : i = j
  · subst hj
    have hilt : i < s.handles.length := (List.getElem?_eq_some_iff.mp hi).1
    rw [if_pos rfl, if_pos hilt, hi]
    simp [hlt]
  · rw [if_neg hj]
    cases hh : s.handles[j]? with
    | none => rfl
    | some handle =>
      obtain ⟨U, data⟩ := handle
      cases data with
      | none => rfl
      | some b =>
        have hne : a ≠ b := fun heq => hj (honly j U (heq ▸ hh)).symm
        simp [hne]

/-- What is counted once is in one place. -/
theorem eq_of_countP_eq_one {α : Type} {p : α → Bool} {l : List α} (h : l.countP p = 1) {j k : Nat}
    {x y : α} (hj : l[j]? = some x) (hk : l[k]? = some y) (hx : p x = true) (hy : p y = true) :
    j = k := by
  induction l generalizing j k with
  | nil => cases hj
  | cons z l ih =>
    rw [List.countP_cons] at h
    -- Where the head is counted, nothing after it is.
    have hnone : p z = true → ∀ w ∈ l, ¬ p w = true := fun hz => by
      rw [if_pos hz] at h
      exact List.countP_eq_zero.mp (by omega)
    cases j with
    | zero =>
      cases hj
      cases k with
      | zero => rfl
      | succ k => exact absurd hy (hnone hx y (List.mem_of_getElem? hk))
    | succ j =>
      cases k with
      | zero =>
        cases hk
        exact absurd hx (hnone hy x (List.mem_of_getElem? hj))
      | succ k =>
        have hz : ¬ p z = true := fun hz => hnone hz x (List.mem_of_getElem? hj) hx
        rw [if_neg hz] at h
        rw [ih h hj hk]

theorem only_of_isUnique (h : s.isUnique a = true) (hi : s.handles[i]? = some ⟨T, some a⟩) :
    ∀ j U, s.handles[j]? = some ⟨U, some a⟩ → j = i := fun j U hj =>
  eq_of_countP_eq_one (of_decide_eq_true h) hj hi (by simp) (by simp)

theorem Valid.make (hv : Valid s) (T : Ty) (o : Object) : Valid (s.make T o) := by
  refine ⟨fun h hh a ha => ?_⟩
  have hlen : (s.make T o).objects.length = s.objects.length + 1 := by simp [State.make]
  rw [hlen]
  rcases List.mem_append.mp hh with hh | hh
  · exact Nat.lt_succ_of_lt (hv.lt h hh a ha)
  · rw [List.mem_singleton.mp hh] at ha
    cases ha
    exact Nat.lt_succ_self _

theorem Valid.setData (hv : Valid s) (i : Nat) (T : Ty) {data : Option Nat}
    (hdata : ∀ a ∈ data, a < s.objects.length) : Valid (s.setData i T data) := by
  refine ⟨fun h hh a ha => ?_⟩
  rcases List.mem_or_eq_of_mem_set hh with hh | rfl
  · exact hv.lt h hh a ha
  · exact hdata a ha

theorem Valid.pushHandle (hv : Valid s) (T : Ty) {a : Nat} (ha : a < s.objects.length) :
    Valid { s with handles := s.handles ++ [⟨T, some a⟩] } := by
  refine ⟨fun h hh b hb => ?_⟩
  rcases List.mem_append.mp hh with hh | hh
  · exact hv.lt h hh b hb
  · rw [List.mem_singleton.mp hh] at hb
    cases hb
    exact ha

theorem Valid.objects (hv : Valid s) {objects : List Object}
    (hle : s.objects.length ≤ objects.length) : Valid { s with objects := objects } :=
  ⟨fun h hh a ha => Nat.lt_of_lt_of_le (hv.lt h hh a ha) hle⟩

theorem Valid.lt_of_deref (hv : Valid s) (h : s.deref i = some (T, a)) : a < s.objects.length :=
  hv.lt _ (List.mem_of_getElem? (deref_eq_some.mp h)) a rfl

variable (C : Classes Ty Object)

/-- A detached handle has a copy, made by its own class, that no other handle has. -/
theorem detach_spec (hv : Valid s) (hi : s.deref i = some (T, a)) (ho : s.objects[a]? = some o) :
    ∃ t, s.detach C i = some t ∧ Valid t ∧ t.values = s.values.set i (T, some (C.copyAs T o)) ∧
      t.deref i = some (T, s.objects.length) ∧ t.objects[s.objects.length]? = some (C.copyAs T o) ∧
      ∀ j U, t.handles[j]? = some ⟨U, some s.objects.length⟩ → j = i := by
  let s₁ : State Ty Object := { s with objects := s.objects ++ [C.copyAs T o] }
  have hlen : s₁.objects.length = s.objects.length + 1 := by simp [s₁]
  have hv₁ : Valid s₁ := hv.objects (by rw [List.length_append]; exact Nat.le_add_right _ _)
  have hnew : s₁.objects[s.objects.length]? = some (C.copyAs T o) := by simp [s₁]
  have hilt : i < s.handles.length := (List.getElem?_eq_some_iff.mp (deref_eq_some.mp hi)).1
  refine ⟨s₁.setData i T (some s.objects.length), ?_, ?_, ?_, ?_, hnew, ?_⟩
  · rw [detach, hi]
    show (s.objects[a]?).bind _ = _
    rw [ho]
    rfl
  · refine hv₁.setData i T fun b hb => ?_
    cases hb
    omega
  · have hvalues : s₁.values = s.values := values_append hv [C.copyAs T o]
    rw [values_setData, hvalues, Option.bind_some, hnew]
  · rw [deref_eq_some, setData, List.getElem?_set_self hilt]
  · intro j U hj
    by_contra hne
    have hj : s.handles[j]? = some ⟨U, some s.objects.length⟩ := by
      rwa [setData, List.getElem?_set_ne (Ne.symm hne)] at hj
    exact Nat.lt_irrefl _ (hv.lt _ (List.mem_of_getElem? hj) _ rfl)

theorem edit_spec (hv : Valid s) (hi : s.deref i = some (T, a)) (ho : s.objects[a]? = some o)
    (f : Edit C) : ∃ t, s.edit C i f = some t ∧ Valid t ∧ t.values =
      s.values.set i (T, some (f.apply (if s.isUnique a then o else C.copyAs T o))) := by
  cases hu : s.isUnique a with
  | true =>
    refine ⟨{ s with objects := s.objects.set a (f.apply o) }, ?_, ?_, ?_⟩
    · simp [edit, hi, hu, ho]
    · exact hv.objects (Nat.le_of_eq List.length_set.symm)
    · have hhandle := deref_eq_some.mp hi
      rw [if_pos rfl, values_write hhandle ho (only_of_isUnique hu hhandle)]
  | false =>
    obtain ⟨t, ht, hvt, hvalues, hit, hot, honly⟩ := detach_spec C hv hi ho
    refine ⟨{ t with objects := t.objects.set s.objects.length (f.apply (C.copyAs T o)) }, ?_, ?_, ?_⟩
    · simp [edit, hi, hu, ht, hit, hot]
    · exact hvt.objects (Nat.le_of_eq List.length_set.symm)
    · rw [values_write (deref_eq_some.mp hit) hot honly, hvalues, List.set_set]
      simp

end State

/-! ## Copies that slice -/

variable {C : Classes Ty Object}

/-- A step that copies an object by a class it is more than. -/
def Slices (s : State Ty Object) : Op C → Prop
  | .fromValue T o lvalue => lvalue = true ∧ C.type o ≠ T
  | .assign i _ | .edit i _ => ∃ T a o, s.deref i = some (T, a) ∧ s.objects[a]? = some o ∧
      s.isUnique a = false ∧ C.type o ≠ T
  | .detach i => ∃ T a o, s.deref i = some (T, a) ∧ s.objects[a]? = some o ∧ C.type o ≠ T
  | _ => False

theorem copyAs_of_type {T : Ty} {o : Object} (h : C.type o = T) : C.copyAs T o = o :=
  h ▸ C.copyAs_type o

theorem copyAs_ne {T : Ty} {o : Object} (h : C.type o ≠ T) : C.copyAs T o ≠ o := fun heq =>
  h (by rw [← heq, C.type_copyAs])

variable {s t : State Ty Object}

/-- A handle is in use, and then it has a value; or it is not. -/
theorem deref_cases (hv : s.Valid) (i : Nat) :
    (s.deref i = none ∧ s.values.get i = none) ∨
      ∃ T a o, s.deref i = some (T, a) ∧ s.objects[a]? = some o ∧ s.values.get i = some (T, o) := by
  cases h : s.deref i with
  | none => exact .inl ⟨rfl, State.get_values_eq_none h⟩
  | some p =>
    obtain ⟨T, a⟩ := p
    obtain ⟨o, ho⟩ := hv.object h
    exact .inr ⟨T, a, o, rfl, ho, State.get_values h ho⟩

theorem lt_of_get {v : Values Ty Object} {i : Nat} {p : Ty × Object} (h : v.get i = some p) :
    i < v.length := by
  obtain ⟨_, hi, -⟩ := Option.bind_eq_some_iff.mp h
  exact (List.getElem?_eq_some_iff.mp hi).1

theorem set_value {v : Values Ty Object} {i : Nat} {T : Ty} {o : Object}
    (h : v.get i = some (T, o)) : v.set i (T, some o) = v := by
  obtain ⟨⟨U, x⟩, hi, h⟩ := Option.bind_eq_some_iff.mp h
  obtain ⟨y, hy, h⟩ := Option.bind_eq_some_iff.mp h
  cases h
  cases hy
  obtain ⟨hlt, hget⟩ := List.getElem?_eq_some_iff.mp hi
  rw [← hget, List.set_getElem_self]

theorem set_inj {α : Type} {l : List α} {i : Nat} {x y : α} (hi : i < l.length)
    (h : l.set i x = l.set i y) : x = y := by
  have hx : (l.set i x)[i]? = some x := List.getElem?_set_self hi
  rw [h, List.getElem?_set_self hi] at hx
  exact (Option.some.inj hx).symm

/-- What is said of the object of a handle that is in use. -/
theorem exists_deref_iff {P : Ty → Nat → Object → Prop} {i a : Nat} {T : Ty} {o : Object}
    (hd : s.deref i = some (T, a)) (ho : s.objects[a]? = some o) :
    (∃ T' a' o', s.deref i = some (T', a') ∧ s.objects[a']? = some o' ∧ P T' a' o') ↔ P T a o := by
  constructor
  · rintro ⟨T', a', o', hd', ho', h⟩
    rw [hd] at hd'
    cases hd'
    rw [ho] at ho'
    cases ho'
    exact h
  · exact fun h => ⟨T, a, o, hd, ho, h⟩

variable [DecidableEq Ty]

/-- The operation is the step of the values, unless it slices; and then it is not. -/
def StepsAsValues (s : State Ty Object) (op : Op C) : Prop :=
  (step C s op = none ∧ Values.step C s.values op = none) ∨
    ∃ t, step C s op = some t ∧ t.Valid ∧
      (¬ Slices s op → Values.step C s.values op = some t.values) ∧
      (Slices s op → Values.step C s.values op ≠ some t.values)

/-- An operation that leads to the same values wherever it is done, and does not slice. -/
theorem steps_of_ite {op : Op C} {p : Prop} [Decidable p] (hstep : step C s op = if p then some t else none)
    (hvalues : Values.step C s.values op = if p then some t.values else none) (ht : t.Valid)
    (hslices : ¬ Slices s op) : StepsAsValues s op := by
  by_cases hp : p
  · rw [if_pos hp] at hstep hvalues
    exact .inr ⟨t, hstep, ht, fun _ => hvalues, fun hsl => absurd hsl hslices⟩
  · rw [if_neg hp] at hstep hvalues
    exact .inl ⟨hstep, hvalues⟩

theorem construct_values (hv : s.Valid) (T : Ty) (o : Object) :
    StepsAsValues s (.construct T o : Op C) := by
  refine steps_of_ite rfl ?_ (hv.make T o) id
  rw [Values.step, State.values_push hv]

theorem fromValue_values (hv : s.Valid) (T : Ty) (o : Object) (lvalue : Bool) :
    StepsAsValues s (.fromValue T o lvalue : Op C) := by
  by_cases hc : C.converts T (C.type o) = true
  · refine .inr ⟨s.fromValue C T o lvalue, by simp [step, hc], hv.make _ _, fun hns => ?_,
      fun hsl heq => ?_⟩
    · have hsame : (if lvalue = true then C.copyAs T o else o) = o := by
        cases lvalue with
        | false => rfl
        | true =>
          rw [if_pos rfl]
          exact copyAs_of_type (by_contra fun hne => hns ⟨rfl, hne⟩)
      rw [Values.step, if_pos hc, State.fromValue, hsame, State.values_push hv]
    · obtain ⟨rfl, hne⟩ := hsl
      rw [Values.step, if_pos hc, State.fromValue, State.values_push hv] at heq
      have hlast := List.append_cancel_left (Option.some.inj heq)
      simp only [if_true, List.cons.injEq, Prod.mk.injEq, Option.some.injEq, true_and,
        and_true] at hlast
      exact copyAs_ne hne hlast.symm
  · exact .inl ⟨by simp [step, hc], by simp [Values.step, hc]⟩

theorem copy_values (hv : s.Valid) (T : Ty) (j : Nat) : StepsAsValues s (.copy T j : Op C) := by
  rcases deref_cases hv j with ⟨hd, hg⟩ | ⟨U, a, o, hd, ho, hg⟩
  · exact .inl ⟨by simp [step, hd], by simp [Values.step, hg]⟩
  have hstep : step C s (.copy T j) = if C.converts T U then
      some { s with handles := s.handles ++ [⟨T, some a⟩] } else none := by
    simp [step, hd]
  refine steps_of_ite hstep ?_ (hv.pushHandle T (hv.lt_of_deref hd)) id
  rw [State.values_pushHandle, Option.bind_some, ho]
  simp [Values.step, hg]

theorem move_values (hv : s.Valid) (T : Ty) (j : Nat) : StepsAsValues s (.move T j : Op C) := by
  rcases deref_cases hv j with ⟨hd, hg⟩ | ⟨U, a, o, hd, ho, hg⟩
  · exact .inl ⟨by simp [step, hd], by simp [Values.step, hg]⟩
  have hstep : step C s (.move T j) = if C.converts T U then
      some { s.setData j U none with handles := (s.setData j U none).handles ++ [⟨T, some a⟩] }
        else none := by
    simp [step, hd]
  have hleft : (s.setData j U none).Valid := hv.setData j U nofun
  have hobjects : (s.setData j U none).objects = s.objects := rfl
  refine steps_of_ite hstep ?_ (hleft.pushHandle T (hv.lt_of_deref hd)) id
  rw [State.values_pushHandle, State.values_setData, Option.bind_some, hobjects, ho]
  simp [Values.step, hg]

theorem assignHandle_values (hv : s.Valid) (i j : Nat) :
    StepsAsValues s (.assignHandle i j : Op C) := by
  rcases deref_cases hv i with ⟨hd, hg⟩ | ⟨T, b, o', hd, -, hg⟩
  · exact .inl ⟨by simp [step, hd], by simp [Values.step, hg]⟩
  rcases deref_cases hv j with ⟨hd', hg'⟩ | ⟨U, a, o, hd', ho, hg'⟩
  · exact .inl ⟨by simp [step, hd, hd'], by simp [Values.step, hg, hg']⟩
  have hstep : step C s (.assignHandle i j) = if C.converts T U then some (s.setData i T (some a))
      else none := by
    simp [step, hd, hd']
  have hvalid : (s.setData i T (some a)).Valid := hv.setData i T fun b hb => by
    cases hb
    exact hv.lt_of_deref hd'
  refine steps_of_ite hstep ?_ hvalid id
  rw [State.values_setData, Option.bind_some, ho]
  simp [Values.step, hg, hg']

theorem moveHandle_values (hv : s.Valid) (i j : Nat) :
    StepsAsValues s (.moveHandle i j : Op C) := by
  rcases deref_cases hv i with ⟨hd, hg⟩ | ⟨T, b, o', hd, -, hg⟩
  · exact .inl ⟨by simp [step, hd], by simp [Values.step, hg]⟩
  rcases deref_cases hv j with ⟨hd', hg'⟩ | ⟨U, a, o, hd', ho, hg'⟩
  · exact .inl ⟨by simp [step, hd, hd'], by simp [Values.step, hg, hg']⟩
  have hstep : step C s (.moveHandle i j) = if C.converts T U then
      some ((s.setData j U none).setData i T (some a)) else none := by
    simp [step, hd, hd']
  have hleft : (s.setData j U none).Valid := hv.setData j U nofun
  have hobjects : (s.setData j U none).objects = s.objects := rfl
  have hvalid : ((s.setData j U none).setData i T (some a)).Valid := hleft.setData i T fun b hb => by
    cases hb
    exact hv.lt_of_deref hd'
  refine steps_of_ite hstep ?_ hvalid id
  rw [State.values_setData, State.values_setData, Option.bind_some, hobjects, ho]
  simp [Values.step, hg, hg']

/-- An edit slices where it copies, by a class other than that of the object. -/
theorem edit_values (hv : s.Valid) (i : Nat) (f : Edit C) : StepsAsValues s (.edit i f) := by
  rcases deref_cases hv i with ⟨hd, hg⟩ | ⟨T, a, o, hd, ho, hg⟩
  · exact .inl ⟨by simp [step, State.edit, hd], by simp [Values.step, hg]⟩
  obtain ⟨t, ht, hvt, hvalues⟩ := State.edit_spec C hv hd ho f
  have hslices : Slices s (.edit i f) ↔ s.isUnique a = false ∧ C.type o ≠ T := exists_deref_iff hd ho
  have hstep : Values.step C s.values (.edit i f) = some (s.values.set i (T, some (f.apply o))) := by
    simp [Values.step, hg]
  refine .inr ⟨t, ht, hvt, fun hns => ?_, fun hsl heq => ?_⟩
  · rw [hstep, hvalues]
    cases hu : s.isUnique a with
    | true => rw [if_pos rfl]
    | false =>
      have htype : C.type o = T := by_contra fun hne => hns (hslices.mpr ⟨hu, hne⟩)
      rw [copyAs_of_type htype, ite_self]
  · obtain ⟨hu, hne⟩ := hslices.mp hsl
    rw [hstep, hvalues, hu, if_neg Bool.false_ne_true] at heq
    have hf : f.apply o = f.apply (C.copyAs T o) :=
      Option.some.inj (Prod.mk.inj (set_inj (lt_of_get hg) (Option.some.inj heq))).2
    have htype := congrArg C.type hf
    rw [f.type_apply, f.type_apply, C.type_copyAs] at htype
    exact hne htype

theorem detach_values (hv : s.Valid) (i : Nat) : StepsAsValues s (.detach i : Op C) := by
  rcases deref_cases hv i with ⟨hd, hg⟩ | ⟨T, a, o, hd, ho, hg⟩
  · exact .inl ⟨by simp [step, State.detach, hd], by simp [Values.step, hg]⟩
  obtain ⟨t, ht, hvt, hvalues, -⟩ := State.detach_spec C hv hd ho
  have hslices : Slices s (.detach i : Op C) ↔ C.type o ≠ T := exists_deref_iff hd ho
  have hstep : Values.step C s.values (.detach i) = some s.values := by simp [Values.step, hg]
  refine .inr ⟨t, ht, hvt, fun hns => ?_, fun hsl heq => ?_⟩
  · have htype : C.type o = T := by_contra fun hne => hns (hslices.mpr hne)
    rw [hstep, hvalues, copyAs_of_type htype, set_value hg]
  · have hsame : s.values = t.values := Option.some.inj (hstep.symm.trans heq)
    rw [hvalues, ← set_value hg, List.set_set] at hsame
    have hval := set_inj (lt_of_get hg) hsame
    exact copyAs_ne (hslices.mp hsl) (Option.some.inj (Prod.mk.inj hval).2).symm

theorem destroy_values (hv : s.Valid) (i : Nat) : StepsAsValues s (.destroy i : Op C) := by
  cases hi : s.handles[i]? with
  | none => exact .inl ⟨by simp [step, hi], by simp [Values.step, State.values, hi]⟩
  | some h =>
    refine .inr ⟨s.setData i h.type none, by simp [step, hi], hv.setData i _ nofun, fun _ => ?_,
      False.elim⟩
    rw [State.values_setData]
    simp [Values.step, State.values, hi]

/-- **One step.** -/
theorem step_values (hv : s.Valid) (op : Op C) : StepsAsValues s op := by
  cases op with
  | construct T o => exact construct_values hv T o
  | fromValue T o lvalue => exact fromValue_values hv T o lvalue
  | copy T j => exact copy_values hv T j
  | move T j => exact move_values hv T j
  | assignHandle i j => exact assignHandle_values hv i j
  | moveHandle i j => exact moveHandle_values hv i j
  -- to assign a value is to edit the object
  | assign i newVal => exact edit_values hv i newVal
  | edit i f => exact edit_values hv i f
  | detach i => exact detach_values hv i
  | destroy i => exact destroy_values hv i

/-! ## Runs -/

omit [DecidableEq Ty] in
theorem valid_init : (State.init : State Ty Object).Valid := ⟨nofun⟩

theorem valid_of_runs {ops : List (Op C)} (h : runs (step C) .init ops = some s) : s.Valid :=
  runs_invariant (fun t op u hv hu => by
    rcases step_values hv op with ⟨hn, -⟩ | ⟨u', hu', hvu, -⟩
    · rw [hn] at hu
      cases hu
    · rw [hu'] at hu
      cases hu
      exact hvu) h valid_init

/-- Along a run, each handle is observed as if it had an object of its own, if and only if no
operation copies an object by a class other than its own. -/
theorem value_semantics_iff (C : Classes Ty Object) (ops : List (Op C)) :
    (∀ ops₁, ops₁ <+: ops → ∀ t, runs (step C) .init ops₁ = some t →
        runs (Values.step C) [] ops₁ = some t.values) ↔
      ∀ ops₁ op t u, ops₁ ++ [op] <+: ops → runs (step C) .init ops₁ = some t →
        step C t op = some u → ¬ Slices t op := by
  constructor
  · intro h ops₁ op t u hpre ht hu hsl
    have hlast := h _ hpre u (runs_concat.mpr ⟨t, ht, hu⟩)
    obtain ⟨v, hv, hstep⟩ := runs_concat.mp hlast
    rw [h _ ((List.prefix_append _ _).trans hpre) t ht] at hv
    cases hv
    rcases step_values (valid_of_runs ht) op with ⟨hn, -⟩ | ⟨u', hu', -, -, hne⟩
    · rw [hn] at hu
      cases hu
    · rw [hu'] at hu
      cases hu
      exact hne hsl hstep
  · intro h ops₁
    induction ops₁ using List.reverseRecOn with
    | nil =>
      intro _ t ht
      cases ht
      rfl
    | append_singleton ops₁ op ih =>
      intro hpre u hu
      obtain ⟨t, ht, hstep⟩ := runs_concat.mp hu
      have hvalues := ih ((List.prefix_append _ _).trans hpre) t ht
      rcases step_values (valid_of_runs ht) op with ⟨hn, -⟩ | ⟨u', hu', -, hsame, -⟩
      · rw [hn] at hstep
        cases hstep
      · have heq : u' = u := by
          rw [hu'] at hstep
          exact Option.some.inj hstep
        exact runs_concat.mpr ⟨t.values, hvalues, heq ▸ hsame (h _ _ _ _ hpre ht hstep)⟩

end Sharing

section Examples

/-- The classes of the tests: `B` derives from `A`. -/
inductive AB
  | A
  | B
deriving DecidableEq

/-- Objects that differ in their class alone. -/
def classesAB : Classes AB AB where
  isBaseOf T U := T = .A || U = .B
  type := id
  copyAs T _ := T
  type_copyAs _ _ := rfl
  copyAs_type _ := rfl

/-- `Cow<A> a{B{}}; a.detach();` leaves an `A`. -/
theorem detach_slices :
    let ops : List (Op classesAB) := [.fromValue .A .B false, .detach 0]
    (runs (step classesAB) .init ops).map State.values = some [(.A, some .A)] ∧
      runs (Values.step classesAB) [] ops = some [(.A, some .B)] := by
  decide

end Examples

end EzCpp.Core.Cow
