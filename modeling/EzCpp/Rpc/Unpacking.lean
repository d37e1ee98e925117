import EzCpp.Rpc.Remote

/-!
# Unpacking arguments

`extract_args` goes through the types of the parameters and takes the argument at the index of each
one, until one does not parse. The number of arguments is never looked at: what is left over is
dropped, and where there are too few an element past the end is read (`extractArgs_law_iff`).
-/

namespace EzCpp.Rpc

variable {ν : Type} {parameters : List (ByteArray → Except String ν)} {args : List ByteArray}
  {vals vals' : List ν} {what : String}

/-! ## The loop -/

/-- The variables of the loop, and whether it has read past the end of the arguments. -/
structure Extracting (ν : Type) where
  result : List ν := []
  error : Option String := none
  overrun : Bool := false

namespace Extracting

/-- The body of the loop. -/
def visit (args : List ByteArray) (x : Extracting ν)
    (parameter : (ByteArray → Except String ν) × Nat) : Extracting ν :=
  if x.error.isSome then x
  else
    match args[parameter.2]? with
    | none => { x with overrun := true }
    | some arg =>
      match parameter.1 arg with
      | .ok val => { x with result := x.result ++ [val] }
      | .error what => { x with error := some what }

def returned (x : Extracting ν) : Extraction ν :=
  if x.overrun then .outOfRange
  else
    match x.error with
    | some what => .parsingError what
    | none => .args x.result

end Extracting

/-- `func::extract_args`, as the loop over the indices. -/
def extractArgsLoop (parameters : List (ByteArray → Except String ν)) (args : List ByteArray) :
    Extraction ν :=
  (parameters.zipIdx.foldl (Extracting.visit args) {}).returned

theorem foldl_visit_of_error {x : Extracting ν} (h : x.error.isSome)
    (l : List ((ByteArray → Except String ν) × Nat)) : l.foldl (Extracting.visit args) x = x := by
  induction l with
  | nil => rfl
  | cons p l ih => rw [List.foldl_cons, Extracting.visit, if_pos h, ih]

theorem overrun_foldl_visit {x : Extracting ν} (h : x.overrun = true)
    (l : List ((ByteArray → Except String ν) × Nat)) :
    (l.foldl (Extracting.visit args) x).overrun = true := by
  induction l generalizing x with
  | nil => exact h
  | cons p l ih =>
    refine ih ?_
    unfold Extracting.visit
    split
    · exact h
    · split
      · rfl
      · split <;> exact h

/-- What the rest of the loop comes to, from index `k` on. -/
theorem returned_foldl_visit (result : List ν) (k : Nat) :
    ((parameters.zipIdx k).foldl (Extracting.visit args) { result }).returned =
      match extractArgs parameters (args.drop k) with
      | .args vals => .args (result ++ vals)
      | other => other := by
  induction parameters generalizing result k with
  | nil => simp [extractArgs, Extracting.returned]
  | cons deserialize parameters ih =>
    rw [List.zipIdx_cons, List.foldl_cons]
    cases ha : args[k]? with
    | none =>
      have hdrop : args.drop k = [] := List.drop_eq_nil_of_le (List.getElem?_eq_none_iff.mp ha)
      have hvisit : Extracting.visit args { result } (deserialize, k) =
          { result, overrun := true } := by simp [Extracting.visit, ha]
      rw [hvisit, hdrop, extractArgs, Extracting.returned, if_pos (overrun_foldl_visit rfl _)]
    | some arg =>
      obtain ⟨hk, rfl⟩ := List.getElem?_eq_some_iff.mp ha
      rw [List.drop_eq_getElem_cons hk, extractArgs]
      cases hd : deserialize args[k] with
      | error what =>
        have hvisit : Extracting.visit args { result } (deserialize, k) =
            { result, error := some what } := by simp [Extracting.visit, ha, hd]
        rw [hvisit, foldl_visit_of_error rfl]
        rfl
      | ok val =>
        have hvisit : Extracting.visit args { result } (deserialize, k) =
            { result := result ++ [val] } := by simp [Extracting.visit, ha, hd]
        rw [hvisit, ih]
        simp only
        cases extractArgs parameters (args.drop (k + 1)) with
        | args vals => simp
        | parsingError what => rfl
        | outOfRange => rfl

theorem extractArgsLoop_eq : extractArgsLoop parameters args = extractArgs parameters args := by
  rw [extractArgsLoop, returned_foldl_visit, List.drop_zero]
  cases extractArgs parameters args <;> rfl

/-! ## Well-formed lists of arguments -/

/-- As many arguments as parameters, each of which parses. -/
inductive Unpacks : List (ByteArray → Except String ν) → List ByteArray → List ν → Prop
  | nil : Unpacks [] [] []
  | cons {deserialize parameters arg args val vals} (h : deserialize arg = .ok val)
      (hs : Unpacks parameters args vals) :
      Unpacks (deserialize :: parameters) (arg :: args) (val :: vals)

/-- The error of the first argument that does not parse. -/
inductive FirstError : List (ByteArray → Except String ν) → List ByteArray → String → Prop
  | here {deserialize parameters arg args what} (h : deserialize arg = .error what) :
      FirstError (deserialize :: parameters) (arg :: args) what
  | there {deserialize parameters arg args val what} (h : deserialize arg = .ok val)
      (hs : FirstError parameters args what) :
      FirstError (deserialize :: parameters) (arg :: args) what

theorem Unpacks.length_eq (h : Unpacks parameters args vals) : args.length = parameters.length := by
  induction h with
  | nil => rfl
  | cons _ _ ih => rw [List.length_cons, List.length_cons, ih]

theorem Unpacks.extractArgs (h : Unpacks parameters args vals) :
    extractArgs parameters args = .args vals := by
  induction h with
  | nil => rfl
  | cons h _ ih => simp [Rpc.extractArgs, h, ih]

theorem FirstError.extractArgs (h : FirstError parameters args what) :
    extractArgs parameters args = .parsingError what := by
  induction h with
  | here h => simp [Rpc.extractArgs, h]
  | there h _ ih => simp [Rpc.extractArgs, h, ih]

/-- An argument that there is a parameter for does not parse. -/
def HasError (parameters : List (ByteArray → Except String ν)) (args : List ByteArray) : Prop :=
  ∃ p ∈ parameters.zip args, ∃ what, p.1 p.2 = .error what

/-- Without errors, the result goes by the length. -/
theorem extractArgs_of_parses (h : ∀ p ∈ parameters.zip args, ∃ val, p.1 p.2 = .ok val) :
    (∃ init rest vals, args = init ++ rest ∧ Unpacks parameters init vals ∧
      extractArgs parameters args = .args vals) ∨
    (args.length < parameters.length ∧ extractArgs parameters args = .outOfRange) := by
  induction parameters generalizing args with
  | nil => exact .inl ⟨[], args, [], rfl, .nil, rfl⟩
  | cons deserialize parameters ih =>
    cases args with
    | nil => exact .inr ⟨Nat.succ_pos _, rfl⟩
    | cons arg args =>
      obtain ⟨⟨val, hval⟩, hrest⟩ := List.forall_mem_cons.mp h
      have hval : deserialize arg = .ok val := hval
      rcases ih hrest with ⟨init, rest, vals, rfl, hu, he⟩ | ⟨hlen, he⟩
      · refine .inl ⟨arg :: init, rest, val :: vals, rfl, .cons hval hu, ?_⟩
        simp [extractArgs, hval, he]
      · refine .inr ⟨Nat.succ_lt_succ hlen, ?_⟩
        simp [extractArgs, hval, he]

theorem exists_firstError (h : HasError parameters args) :
    ∃ what, FirstError parameters args what := by
  obtain ⟨p, hp, what, hwhat⟩ := h
  induction parameters generalizing args with
  | nil => cases hp
  | cons deserialize parameters ih =>
    cases args with
    | nil => cases hp
    | cons arg args =>
      cases hd : deserialize arg with
      | error what => exact ⟨what, .here hd⟩
      | ok val =>
        rcases List.mem_cons.mp hp with rfl | hp
        · cases hd.symm.trans hwhat
        · obtain ⟨what, h⟩ := ih hp
          exact ⟨what, .there hd h⟩

/-! ## The law -/

/-- **The law.** Exactly the well-formed lists are unpacked, and for any other list there is an error,
that of the first argument that does not parse if there is one. -/
structure ArgumentLaw (parameters : List (ByteArray → Except String ν)) (args : List ByteArray) :
    Prop where
  accepts : ∀ vals, extractArgsLoop parameters args = .args vals ↔ Unpacks parameters args vals
  rejects : (∀ vals, ¬ Unpacks parameters args vals) →
    ∃ what, extractArgsLoop parameters args = .parsingError what ∧
      ∀ what', FirstError parameters args what' → what = what'

theorem argumentLaw_of_error (h : HasError parameters args) : ArgumentLaw parameters args := by
  obtain ⟨what, hwhat⟩ := exists_firstError h
  have hloop : extractArgsLoop parameters args = .parsingError what :=
    extractArgsLoop_eq.trans hwhat.extractArgs
  refine ⟨fun vals => ?_, fun _ => ⟨what, hloop, fun what' h' => ?_⟩⟩
  · rw [hloop]
    exact ⟨nofun, fun hu => nomatch hu.extractArgs.symm.trans hwhat.extractArgs⟩
  · cases hwhat.extractArgs.symm.trans h'.extractArgs
    rfl

theorem argumentLaw_of_unpacks (h : Unpacks parameters args vals) :
    ArgumentLaw parameters args := by
  refine ⟨fun vals' => ?_, fun hnone => absurd h (hnone vals)⟩
  rw [extractArgsLoop_eq, h.extractArgs]
  constructor
  · intro he
    cases he
    exact h
  · intro h'
    rw [← h.extractArgs, h'.extractArgs]

theorem parses_of_not_error (h : ¬ HasError parameters args) :
    ∀ p ∈ parameters.zip args, ∃ val, p.1 p.2 = .ok val := fun p hp => by
  cases hd : p.1 p.2 with
  | ok val => exact ⟨val, rfl⟩
  | error what => exact absurd ⟨p, hp, what, hd⟩ h

/-- Where the law holds and there is no error, the number of arguments is right. -/
theorem ArgumentLaw.length_eq (h : ArgumentLaw parameters args)
    (hno : ¬ HasError parameters args) : args.length = parameters.length := by
  rcases extractArgs_of_parses (parses_of_not_error hno) with
    ⟨init, rest, vals, rfl, -, he⟩ | ⟨hlen, he⟩
  · exact ((h.accepts vals).mp (extractArgsLoop_eq.trans he)).length_eq
  · have hnone : ∀ vals, ¬ Unpacks parameters args vals := fun vals hu =>
      Nat.ne_of_lt hlen hu.length_eq
    obtain ⟨what, hwhat, -⟩ := h.rejects hnone
    cases (extractArgsLoop_eq.trans he).symm.trans hwhat

theorem argumentLaw_of_length_eq (h : args.length = parameters.length) :
    ArgumentLaw parameters args := by
  by_cases herror : HasError parameters args
  · exact argumentLaw_of_error herror
  · rcases extractArgs_of_parses (parses_of_not_error herror) with
      ⟨init, rest, vals, rfl, hu, -⟩ | ⟨hlen, -⟩
    · obtain rfl : rest = [] := by
        have := hu.length_eq
        rw [List.length_append] at h
        exact List.length_eq_zero_iff.mp (by omega)
      rw [List.append_nil]
      exact argumentLaw_of_unpacks hu
    · exact absurd h (Nat.ne_of_lt hlen)

/-- What the client has packed is well formed. -/
theorem unpacks_serialize {types : List (Serializer ν)}
    (h : List.Forall₂ Serializer.holds types vals) :
    Unpacks (types.map Serializer.deserialize) (types.zipWith Serializer.serialize vals) vals := by
  induction h with
  | nil => exact .nil
  | cons hval _ ih => exact .cons (Serializer.inverts _ hval) ih

/-- **Unpacking keeps the law exactly where the number of arguments is right or one of them does not
parse, and what was packed is unpacked.** -/
theorem extractArgs_law_iff (types : List (Serializer ν)) (args : List ByteArray) :
    (ArgumentLaw (types.map Serializer.deserialize) args ↔
      args.length = types.length ∨ HasError (types.map Serializer.deserialize) args) ∧
    ∀ vals, List.Forall₂ Serializer.holds types vals →
      extractArgsLoop (types.map Serializer.deserialize)
        (types.zipWith Serializer.serialize vals) = .args vals := by
  have hmap : (types.map Serializer.deserialize).length = types.length := List.length_map _
  refine ⟨⟨fun h => ?_, ?_⟩, fun vals h =>
    extractArgsLoop_eq.trans (unpacks_serialize h).extractArgs⟩
  · by_cases herror : HasError (types.map Serializer.deserialize) args
    · exact .inr herror
    · exact .inl (hmap ▸ h.length_eq herror)
  · rintro (h | h)
    · exact argumentLaw_of_length_eq (h.trans hmap.symm)
    · exact argumentLaw_of_error h

/-- A type of two values. -/
def flag : Serializer Bool where
  holds _ := True
  serialize b := ⟨if b then "1" else "0"⟩
  deserialize bytes :=
    if bytes.value = "1" then .ok true
    else if bytes.value = "0" then .ok false
    else .error "not a flag"
  inverts {b} _ := by cases b <;> decide

theorem argumentLaw_flags :
    ArgumentLaw [flag.deserialize, flag.deserialize] [⟨"1"⟩, ⟨"0"⟩] ∧
      extractArgsLoop [flag.deserialize, flag.deserialize] [⟨"1"⟩, ⟨"0"⟩] = .args [true, false] := by
  obtain ⟨hlaw, hpacked⟩ := extractArgs_law_iff [flag, flag] [⟨"1"⟩, ⟨"0"⟩]
  exact ⟨hlaw.mpr (.inl rfl), hpacked [true, false] (.cons trivial (.cons trivial .nil))⟩

/-- One argument too few is read past the end of the list, and one too many is accepted. -/
theorem argumentLaw_fails : ¬ ArgumentLaw [flag.deserialize] [] ∧
    ¬ ArgumentLaw [flag.deserialize] [⟨"1"⟩, ⟨"x"⟩] := by
  constructor
  · intro h
    have hlen := h.length_eq (by rintro ⟨p, hp, -⟩; cases hp)
    cases hlen
  · intro h
    have hu := (h.accepts [true]).mp rfl
    cases hu.length_eq

end EzCpp.Rpc
