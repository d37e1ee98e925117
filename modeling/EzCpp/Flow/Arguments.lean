import EzCpp.Flow.Contracts
import Mathlib.Data.Fintype.EquivFin
import Mathlib.Data.List.Nodup
import Mathlib.Data.List.OfFn

/-!
# The arguments of a workflow

A parameter takes the first argument with its name, and where there is none the argument at its own
position, whether this one has a name or not (`CallArguments.taken`). Where every argument is used
once is a matter of positions and names alone (`NamesFit`): the names must be distinct and declared,
and every parameter that is not named must have an argument without a name at its own position.

All the code checks is the number of the arguments, and the types of those that are taken.
-/

namespace EzCpp.Flow

open EzCpp.Lib Ast

namespace CallArguments

/-- The names that are given. -/
def names (args : CallArguments) : List String := List.filterMap Prod.fst args

/-- The position of the argument that the parameter with this name and position takes. -/
def taken (args : CallArguments) (name : String) (index : Nat) : Nat :=
  (List.findIdx? (fun arg => arg.1 == some name) args).getD index

end CallArguments

/-- Every parameter has one argument, and every argument is used once: the named ones by the
parameter of that name, the others, in order, by the parameters that are not named. -/
structure OneToOne (args : CallArguments) (inputs : List Declaration)
    (bound : Fin inputs.length → Fin args.length) : Prop where
  bijective : Function.Bijective bound
  named : ∀ j name, (args.get j).1 = some name → ∃ i, inputs[i].name = name ∧ bound i = j
  unnamed : ∀ i, inputs[i].name ∉ args.names → (args.get (bound i)).1 = none
  ordered : ∀ i j, i < j → inputs[i].name ∉ args.names → inputs[j].name ∉ args.names →
    bound i < bound j

/-- The names are distinct and declared, and a parameter that is not named has an argument without a
name at its own position. -/
structure NamesFit (args : CallArguments) (inputs : List Declaration) : Prop where
  distinct : args.names.Nodup
  declared : ∀ name ∈ args.names, ∃ i : Fin inputs.length, inputs[i].name = name
  inPlace : ∀ i : Fin inputs.length, inputs[i].name ∉ args.names →
    ∃ value, args[i.val]? = some (none, value)

/-! ## What is taken -/

section Taken

variable {args : CallArguments} {inputs : List Declaration} {name : String} {index : Nat}

theorem CallArguments.mem_names : name ∈ args.names ↔ ∃ j : Fin args.length, (args.get j).1 = some name := by
  rw [names, List.mem_filterMap]
  constructor
  · rintro ⟨arg, hm, hn⟩
    obtain ⟨j, hj, rfl⟩ := List.getElem_of_mem hm
    exact ⟨⟨j, hj⟩, hn⟩
  · rintro ⟨j, hn⟩
    exact ⟨_, List.getElem_mem j.isLt, hn⟩

theorem argumentOf_eq : argumentOf args name index =
    args[args.taken name index]?.map Prod.snd := by
  rw [argumentOf, CallArguments.find, List.find?_eq_bind_findIdx?_getElem?, CallArguments.taken]
  cases h : List.findIdx? (fun arg => arg.1 == some name) args with
  | none => rfl
  | some j =>
    obtain ⟨hj, -⟩ := List.findIdx?_eq_some_iff_getElem.mp h
    simp [List.getElem?_eq_getElem hj]

/-- A parameter that is not named takes the argument at its own position. -/
theorem CallArguments.taken_of_not_mem (h : name ∉ args.names) : args.taken name index = index := by
  have none : List.findIdx? (fun arg => arg.1 == some name) args = none := by
    refine List.findIdx?_eq_none_iff.mpr fun arg hm => ?_
    refine beq_eq_false_iff_ne.mpr fun hn => h ?_
    exact List.mem_filterMap.mpr ⟨arg, hm, hn⟩
  rw [taken, none, Option.getD_none]

/-- One that is named takes an argument of that name. -/
theorem CallArguments.taken_of_mem (h : name ∈ args.names) :
    ∃ hj : args.taken name index < args.length, args[args.taken name index].1 = some name := by
  have found : (List.findIdx? (fun arg => arg.1 == some name) args).isSome := by
    obtain ⟨arg, hm, hn⟩ := List.mem_filterMap.mp h
    rw [List.findIdx?_isSome, List.any_eq_true]
    exact ⟨arg, hm, beq_iff_eq.mpr hn⟩
  obtain ⟨j, hj⟩ := Option.isSome_iff_exists.mp found
  obtain ⟨hlt, hn, -⟩ := List.findIdx?_eq_some_iff_getElem.mp hj
  have eq : args.taken name index = j := by rw [taken, hj, Option.getD_some]
  exact ⟨eq ▸ hlt, by simpa only [eq] using beq_iff_eq.mp hn⟩

theorem CallArguments.taken_lt (h : index < args.length) : args.taken name index < args.length := by
  by_cases hn : name ∈ args.names
  · exact (taken_of_mem hn).1
  · rwa [taken_of_not_mem hn]

/-- With distinct names there is one argument for each. -/
theorem eq_of_name_eq (hd : args.names.Nodup) {j k : Fin args.length} (hj : (args.get j).1 = some name)
    (hk : (args.get k).1 = some name) : j = k := by
  have apart := List.pairwise_iff_getElem.mp (List.pairwise_filterMap.mp hd)
  rcases lt_trichotomy j k with h | h | h
  · exact absurd rfl (apart j k j.isLt k.isLt h name hj name hk)
  · exact h
  · exact absurd rfl (apart k j k.isLt j.isLt h name hk name hj)

theorem input_eq (hd : (inputs.map Declaration.name).Nodup) {i j : Fin inputs.length}
    (h : inputs[i].name = inputs[j].name) : i = j := by
  have apart := List.pairwise_iff_getElem.mp (List.pairwise_map.mp hd)
  rcases lt_trichotomy i j with hij | hij | hij
  · exact absurd h (apart i j i.isLt j.isLt hij)
  · exact hij
  · exact absurd h.symm (apart j i j.isLt i.isLt hij)

end Taken

/-! ## When it is one to one -/

section OneToOne

variable {args : CallArguments} {inputs : List Declaration}
  {bound : Fin inputs.length → Fin args.length}
  (hb : ∀ i, (bound i).val = args.taken inputs[i].name i)
include hb

theorem bound_of_not_mem {i : Fin inputs.length} (h : inputs[i].name ∉ args.names) :
    (bound i).val = i.val := by
  rw [hb, CallArguments.taken_of_not_mem h]

theorem bound_of_mem {i : Fin inputs.length} (h : inputs[i].name ∈ args.names) :
    (args.get (bound i)).1 = some inputs[i].name := by
  obtain ⟨hlt, hn⟩ : ∃ hj : args.taken inputs[i].name i < args.length,
      (args.get ⟨args.taken inputs[i].name i, hj⟩).1 = some inputs[i].name :=
    CallArguments.taken_of_mem h
  have eq : bound i = ⟨_, hlt⟩ := Fin.ext (hb i)
  rw [eq]
  exact hn

theorem OneToOne.namesFit (hd : (inputs.map Declaration.name).Nodup)
    (h : OneToOne args inputs bound) : NamesFit args inputs := by
  refine ⟨?_, fun name hn => ?_, fun i hi => ?_⟩
  · refine List.pairwise_filterMap.mpr (List.pairwise_iff_getElem.mpr ?_)
    rintro j k hj hk hjk name hn _ hn' rfl
    obtain ⟨i, hi, hij⟩ := h.named ⟨j, hj⟩ name hn
    obtain ⟨i', hi', hik⟩ := h.named ⟨k, hk⟩ name hn'
    have same : i = i' := input_eq hd (hi.trans hi'.symm)
    rw [← same, hij] at hik
    exact absurd (Fin.mk.inj hik) (Nat.ne_of_lt hjk)
  · obtain ⟨j, hj⟩ := CallArguments.mem_names.mp hn
    obtain ⟨i, hi, -⟩ := h.named j name hj
    exact ⟨i, hi⟩
  · have none := h.unnamed i hi
    have place := bound_of_not_mem hb hi
    refine ⟨(args.get (bound i)).2, ?_⟩
    rw [← place, ← none]
    exact List.getElem?_eq_getElem (bound i).isLt

theorem NamesFit.unnamed (h : NamesFit args inputs) {i : Fin inputs.length}
    (hi : inputs[i].name ∉ args.names) : (args.get (bound i)).1 = none := by
  obtain ⟨value, hv⟩ := h.inPlace i hi
  rw [← bound_of_not_mem hb hi] at hv
  obtain ⟨hlt, hv⟩ := List.getElem?_eq_some_iff.mp hv
  exact congrArg Prod.fst hv

/-- The parameters that are named take arguments with names and the others those without, so no two
of them take the same. -/
theorem NamesFit.injective (hd : (inputs.map Declaration.name).Nodup) (h : NamesFit args inputs) :
    Function.Injective bound := by
  intro i j hij
  by_cases hi : inputs[i].name ∈ args.names
  · have first := bound_of_mem hb hi
    by_cases hj : inputs[j].name ∈ args.names
    · have second := bound_of_mem hb hj
      rw [← hij, first] at second
      exact input_eq hd (Option.some.inj second)
    · have second := h.unnamed hb hj
      rw [← hij, first] at second
      cases second
  · have first := h.unnamed hb hi
    by_cases hj : inputs[j].name ∈ args.names
    · have second := bound_of_mem hb hj
      rw [← hij, first] at second
      cases second
    · have places := congrArg Fin.val hij
      rw [bound_of_not_mem hb hi, bound_of_not_mem hb hj] at places
      exact Fin.ext places

theorem NamesFit.oneToOne (hl : args.length = inputs.length)
    (hd : (inputs.map Declaration.name).Nodup) (h : NamesFit args inputs) :
    OneToOne args inputs bound where
  bijective := (Fintype.bijective_iff_injective_and_card bound).mpr
    ⟨h.injective hb hd, by rw [Fintype.card_fin, Fintype.card_fin, hl]⟩
  named j name hj := by
    have mem := CallArguments.mem_names.mpr ⟨j, hj⟩
    obtain ⟨i, rfl⟩ := h.declared name mem
    exact ⟨i, rfl, eq_of_name_eq h.distinct (bound_of_mem hb mem) hj⟩
  unnamed i hi := h.unnamed hb hi
  ordered i j hij hi hj := by
    rw [Fin.lt_def, bound_of_not_mem hb hi, bound_of_not_mem hb hj]
    exact hij

end OneToOne

/-! ## What the code does -/

/-- The type of the parameter is known, and is the type of the argument that it takes. -/
def Typed (args : CallArguments) (s : State) (input : Declaration) (index : Nat) : Prop :=
  ∃ type argument, s.findType input.type = some type ∧
    argumentOf args input.name index = some argument ∧ type.same argument.type

/-- An accepted call has its arguments bound one to one, and one for which this cannot be done is
rejected. -/
structure ArgumentLaw (args : CallArguments) (inputs : List Declaration)
    (r : Run Action Exception Unit) : Prop where
  accepted : r.exit = .ok () → ∃ bound : Fin inputs.length → Fin args.length,
    OneToOne args inputs bound ∧ (∀ i, (bound i).val = args.taken inputs[i].name i) ∧
    r.log = List.ofFn fun i => .declare inputs[i].name (args.get (bound i)).2
  rejected : (¬ ∃ bound, OneToOne args inputs bound) → ∃ what, r.exit = .throw (.evaluation what)

section Run

variable {invocation : WorkflowInvocation} {call : FunctionCall}
  (hc : invocation.instanciation = .functionCall call)
include hc

/-- From the `index`-th parameter on: all of them are bound, or the call is rejected. -/
theorem run_bindArguments (first : Option Declaration) (inputs : List Declaration) (index : Nat)
    (s : State)
    (found : ∀ p ∈ inputs.zipIdx index,
      (argumentOf invocation.arguments p.1.name p.2).isSome) :
    (∀ p ∈ inputs.zipIdx index, Typed invocation.arguments s p.1 p.2) ∧
      bindArguments invocation first index inputs s = ⟨.ok (), (inputs.zipIdx index).filterMap
        fun p => (argumentOf invocation.arguments p.1.name p.2).map (.declare p.1.name)⟩ ∨
    (¬ ∀ p ∈ inputs.zipIdx index, Typed invocation.arguments s p.1 p.2) ∧
      ∃ what, (bindArguments invocation first index inputs s).exit = .throw (.evaluation what) := by
  induction inputs generalizing index s with
  | nil => exact .inl ⟨nofun, rfl⟩
  | cons input inputs ih =>
    rw [List.zipIdx_cons] at found ⊢
    obtain ⟨argument, ha⟩ := Option.isSome_iff_exists.mp (found _ List.mem_cons_self)
    rw [bindArguments, ha]
    simp only [Eval.gets, Coroutine.gets_bind]
    have here : Typed invocation.arguments s input index ↔
        ∃ type, s.findType input.type = some type ∧ type.same argument.type := by
      rw [Typed, ha]
      simp
    cases ht : s.findType input.type with
    | none =>
      refine .inr ⟨fun h => ?_, ?_⟩
      · obtain ⟨type, hf, -⟩ := here.mp (h _ List.mem_cons_self)
        rw [ht] at hf
        cases hf
      · rw [hc]
        exact ⟨_, rfl⟩
    | some type =>
      cases same : type.same argument.type with
      | false =>
        refine .inr ⟨fun h => ?_, ?_⟩
        · obtain ⟨type', hf, ok⟩ := here.mp (h _ List.mem_cons_self)
          rw [ht] at hf
          cases hf
          rw [same] at ok
          cases ok
        · rw [hc]
          simp only [same, Bool.not_false, if_true]
          exact ⟨_, rfl⟩
      | true =>
        have typed := here.mpr ⟨type, ht, same⟩
        have next : (Eval.perform (.declare input.name argument)).after s =
          s.declare input.name argument := rfl
        simp only [same, Bool.not_true, Bool.false_eq_true, if_false]
        rcases ih (index + 1) (s.declare input.name argument)
          fun p hp => found p (List.mem_cons_of_mem _ hp) with ⟨rest, run⟩ | ⟨rest, what, run⟩
        · refine .inl ⟨fun p hp => ?_, ?_⟩
          · rcases List.mem_cons.mp hp with rfl | hp
            · exact typed
            · exact rest p hp
          · rw [Coroutine.bind_ok (rfl : (Eval.perform _ s).exit = .ok ()), next, run,
              List.filterMap_cons_some (b := .declare input.name argument) (by rw [ha]; rfl)]
            rfl
        · refine .inr ⟨fun h => rest fun p hp => h p (List.mem_cons_of_mem _ hp), what, ?_⟩
          rw [Coroutine.bind_ok (rfl : (Eval.perform _ s).exit = .ok ()), next, run]

end Run

theorem zipIdx_eq_map {α : Type} (l : List α) :
    l.zipIdx = (List.finRange l.length).map fun i => (l[i], i.val) := by
  refine List.ext_getElem (by simp) fun i hi hi' => ?_
  simp

section Main

variable {invocation : WorkflowInvocation} {signature : Signature} {call : FunctionCall}
  (hs : invocation.definition.signature = some signature)
  (hc : invocation.instanciation = .functionCall call) (s : State)
include hs hc

/-- The call is accepted where the number of the arguments and the types of those that are taken are
right. Then the parameters are declared with what they take. -/
theorem evalArguments_cases :
    (∃ hl : invocation.arguments.length = signature.inputs.length,
      (∀ i : Fin signature.inputs.length, Typed invocation.arguments s signature.inputs[i] i) ∧
      evalArguments invocation s = ⟨.ok (), List.ofFn fun i : Fin signature.inputs.length =>
        .declare signature.inputs[i].name (invocation.arguments.get
          ⟨invocation.arguments.taken signature.inputs[i].name i,
            CallArguments.taken_lt (i.isLt.trans_eq hl.symm)⟩).2⟩) ∨
    (invocation.arguments.length = signature.inputs.length →
      ¬ ∀ i : Fin signature.inputs.length, Typed invocation.arguments s signature.inputs[i] i) ∧
      ∃ what, (evalArguments invocation s).exit = .throw (.evaluation what) := by
  rw [evalArguments, hs]
  by_cases hl : invocation.arguments.length = signature.inputs.length
  · have takes : ∀ i : Fin signature.inputs.length,
        argumentOf invocation.arguments signature.inputs[i].name i = some (invocation.arguments.get
          ⟨invocation.arguments.taken signature.inputs[i].name i,
            CallArguments.taken_lt (i.isLt.trans_eq hl.symm)⟩).2 := by
      intro i
      rw [argumentOf_eq, List.getElem?_eq_getElem (CallArguments.taken_lt (i.isLt.trans_eq hl.symm))]
      rfl
    simp only [hl, ne_eq, not_true_eq_false, if_false]
    have cases := run_bindArguments hc signature.inputs.head? signature.inputs 0 s
    simp only [zipIdx_eq_map, List.forall_mem_map, List.mem_finRange, forall_const] at cases
    rcases cases fun i => by rw [takes]; rfl with ⟨typed, run⟩ | ⟨typed, rejected⟩
    · refine .inl ⟨trivial, typed, ?_⟩
      rw [run, List.filterMap_map, List.ofFn_eq_map, ← List.filterMap_eq_map]
      congr 2
      funext i
      simp only [Function.comp_apply, takes]
      rfl
    · exact .inr ⟨fun _ => typed, rejected⟩
  · refine .inr ⟨fun h => absurd h hl, ?_⟩
    simp only [hl, ne_eq, not_false_eq_true, if_true]
    rw [hc]
    exact ⟨_, rfl⟩

/-- **The arguments of a call are bound one to one if and only if their names fit or the call is
rejected anyway, for the number of the arguments or for the types of those that are taken.** -/
theorem argumentLaw_iff (hd : (signature.inputs.map Declaration.name).Nodup) :
    ArgumentLaw invocation.arguments signature.inputs (evalArguments invocation s) ↔
      (invocation.arguments.length = signature.inputs.length →
        (∀ i : Fin signature.inputs.length, Typed invocation.arguments s signature.inputs[i] i) →
        NamesFit invocation.arguments signature.inputs) := by
  rcases evalArguments_cases hs hc s with ⟨hl, typed, run⟩ | ⟨untyped, what, run⟩
  · constructor
    · intro law _ _
      obtain ⟨bound, one, hb, -⟩ := law.accepted (by rw [run])
      exact one.namesFit hb hd
    · intro fit
      have one : OneToOne invocation.arguments signature.inputs fun i =>
          ⟨invocation.arguments.taken signature.inputs[i].name i,
            CallArguments.taken_lt (i.isLt.trans_eq hl.symm)⟩ :=
        (fit hl typed).oneToOne (fun _ => rfl) hl hd
      refine ⟨fun _ => ⟨_, one, fun _ => rfl, by rw [run]⟩, fun none => absurd ⟨_, one⟩ none⟩
  · refine iff_of_true ⟨fun he => ?_, fun _ => ⟨what, run⟩⟩ fun hl typed => absurd typed (untyped hl)
    rw [run] at he
    cases he

end Main

/-- `workflow pair(a: integer, b: integer) []` -/
def pair : WorkflowDefinition where
  name := "pair"
  signature := some ⟨[⟨"a", "integer"⟩, ⟨"b", "integer"⟩], none⟩
  statements := []

/-- `pair(b = 1, 2)`, once the arguments have values -/
def pairCall : WorkflowInvocation where
  definition := pair
  instanciation := .functionCall ⟨⟨"pair", []⟩,
    [⟨some "b", (Literal.integer 1).toExpression⟩, ⟨none, (Literal.integer 2).toExpression⟩]⟩
  arguments := [(some "b", .integer 1), (none, .integer 2)]

theorem pairCall_law :
    ArgumentLaw pairCall.arguments [⟨"a", "integer"⟩, ⟨"b", "integer"⟩]
      (evalArguments pairCall (.fresh [])) ↔
    (pairCall.arguments.length = 2 →
      (∀ i : Fin 2, Typed pairCall.arguments (.fresh [])
        ([⟨"a", "integer"⟩, ⟨"b", "integer"⟩] : List Declaration)[i] i) →
      NamesFit pairCall.arguments [⟨"a", "integer"⟩, ⟨"b", "integer"⟩]) :=
  @argumentLaw_iff pairCall _ _ rfl rfl (.fresh []) (by decide)

/-- Both parameters take the first argument, and the second one is lost. -/
theorem pairCall_takes_twice :
    ¬ ∀ (invocation : WorkflowInvocation) (signature : Signature) (call : FunctionCall) (s : State),
      invocation.definition.signature = some signature →
      invocation.instanciation = .functionCall call →
      (signature.inputs.map Declaration.name).Nodup →
      ArgumentLaw invocation.arguments signature.inputs (evalArguments invocation s) := by
  intro h
  have law := h pairCall _ _ (.fresh []) rfl rfl (by decide)
  obtain ⟨bound, one, hb, -⟩ := law.accepted rfl
  have both : bound (0 : Fin 2) = bound (1 : Fin 2) :=
    Fin.ext ((hb (0 : Fin 2)).trans (hb (1 : Fin 2)).symm)
  exact absurd (one.bijective.1 both) (by decide)

end EzCpp.Flow
