import EzCpp.Flow.Assignment
import Mathlib.Data.Fintype.EquivFin

/-!
# Declarations with an initialiser

`b : T = a` gives `b` a copy of one level of storage. A value without dictionaries at its root is
only ever written as a whole, so that one level is enough. A dictionary is written through the
entries of `b` too, where the storage of `a` can be put, so that it is not.
-/

namespace EzCpp.Flow

open EzCpp.Lib Ast

def Entity.isDictionary : Entity → Bool
  | .dictionary _ _ => true
  | _ => false

/-- What is done with a variable: an assignment through a path, or an insertion into what a path
leads to. What is assigned or inserted is some entity, for which there may be new storage. -/
inductive Write
  | new (k : Kind) (c : k.Content)
  | assign (properties : List Identifier) (value : Entity)
  | insert (properties : List Identifier) (key : Nat) (value : Entity)

def Write.eval (name : Identifier) : Write → Eval Unit
  | .new k c => do
    let _ ← Eval.alloc k c
  | .assign properties value => evalAssignment ⟨name, properties⟩ (pure value)
  | .insert properties key value => do
    let self ← evalIdentifierPath ⟨name, properties⟩
    let _ ← Eval.ensureValue
      (← callMemFunction self "insert" [(none, .string key), (none, value)])

def State.writes (s : State) (name : Identifier) (ws : List Write) : State :=
  ws.foldl (fun s w => (w.eval name).after s) s

theorem writes_append (s : State) (name : Identifier) (ws ws' : List Write) :
    s.writes name (ws ++ ws') = (s.writes name ws).writes name ws' :=
  List.foldl_append

/-- Writes through one variable change nothing that is read through the other one. -/
def Unaffected (s : State) (writer reader : Identifier) : Prop := ∀ ws properties x,
  (s.writes writer ws).Reads ⟨reader, properties⟩ x ↔ s.Reads ⟨reader, properties⟩ x

/-- Each of the variables owns its value. -/
def Independent (s : State) (a b : Identifier) : Prop := Unaffected s b a ∧ Unaffected s a b

/-! ## Writes to a variable that is no dictionary -/

section Plain

variable {s : State} {e : Entity}

/-- There is nothing behind such a variable but, for an array, a new size. -/
theorem evalProperties_plain (hd : e.isDictionary = false) (names : List Identifier) :
    ((evalProperties e names s).log = [] ∨
      ∃ n, (evalProperties e names s).log = [.alloc .integer n]) ∧
    ∀ lhs, (evalProperties e names s).exit = .ok lhs → lhs = e ∨ lhs = .integer s.heap.next := by
  cases names with
  | nil => exact ⟨.inl rfl, fun lhs h => .inl (Exit.ok.inj h).symm⟩
  | cons name names =>
    have missing : ∀ what, getProperty e name s = ⟨.ok (.error what), []⟩ →
        ((evalProperties e (name :: names) s).log = [] ∨
          ∃ n, (evalProperties e (name :: names) s).log = [.alloc .integer n]) ∧
        ∀ lhs, (evalProperties e (name :: names) s).exit = .ok lhs →
          lhs = e ∨ lhs = .integer s.heap.next := by
      intro what run
      rw [evalProperties_missing run]
      exact ⟨.inl rfl, fun _ h => absurd h (Exit.throw_ne_ok _ _)⟩
    cases e with
    | array a =>
      by_cases hn : name = "size"
      · have run : getProperty (.array a) name s = ⟨.ok (.ok (.integer s.heap.next)),
            [.alloc .integer (Int64.ofNat (s.heap.cell .array a).length)]⟩ := by
          simp only [getProperty, if_pos hn]
          rfl
        rw [evalProperties_found run]
        cases names with
        | nil => exact ⟨.inr ⟨_, rfl⟩, fun lhs h => .inr (Exit.ok.inj h).symm⟩
        | cons name names =>
          have none : ∀ t b, getProperty (.integer b) name t =
              ⟨.ok (.error ("Property '" ++ name ++ "' not found")), []⟩ := fun _ _ => rfl
          rw [evalProperties_missing (none _ _)]
          exact ⟨.inr ⟨_, rfl⟩, fun _ h => absurd h (Exit.throw_ne_ok _ _)⟩
      · refine missing ("Property '" ++ name ++ "' not found") ?_
        simp only [getProperty, if_neg hn]
        rfl
    | dictionary k a => cases hd
    | _ => exact missing ("Property '" ++ name ++ "' not found") rfl

theorem evalProperties_plain_after (st : Option Storage) (hd : e.isDictionary = false) (names : List Identifier) :
    ((evalProperties e names).after s).scopes = s.scopes ∧
      Heap.SameBut st s.heap ((evalProperties e names).after s).heap := by
  rcases (evalProperties_plain hd names).1 with hl | ⟨n, hl⟩
  · rw [Coroutine.after, hl]
    exact ⟨rfl, .refl _ _⟩
  · rw [Coroutine.after, hl]
    exact ⟨rfl, s.heap.sameBut_alloc _ _ _⟩

/-- **A write changes the storage of the variable, at most.** -/
theorem write_plain {name : Identifier} (hf : s.findEntity name = some e)
    (hd : e.isDictionary = false) (w : Write) :
    ((w.eval name).after s).scopes = s.scopes ∧
      Heap.SameBut e.overwritten s.heap ((w.eval name).after s).heap := by
  have path : ∀ properties, evalIdentifierPath ⟨name, properties⟩ s = evalProperties e properties s := by
    intro properties
    rw [evalIdentifierPath, Eval.gets, Coroutine.gets_bind, hf]
  have after : ∀ properties, (evalIdentifierPath ⟨name, properties⟩).after s =
      (evalProperties e properties).after s := by
    intro properties
    rw [Coroutine.after, path, Coroutine.after]
  cases w with
  | new k c => exact ⟨rfl, s.heap.sameBut_alloc _ _ _⟩
  | assign properties value =>
    obtain ⟨scopes, heap⟩ := evalProperties_plain_after e.overwritten hd properties (s := s)
    simp only [Write.eval, evalAssignment]
    by_cases hok : ∃ lhs, (evalProperties e properties s).exit = .ok lhs
    · obtain ⟨lhs, hok⟩ := hok
      rw [Coroutine.after_bind_ok (by rw [path]; exact hok), after]
      refine ⟨scopes, ?_⟩
      have write := sameBut_assign ((evalProperties e properties).after s).heap lhs value
      rcases (evalProperties_plain hd properties).2 lhs hok with rfl | rfl
      · exact heap.trans write
      · exact heap.write_new (Nat.le_refl _) write
    · rw [Coroutine.after_bind_of_not_ok fun lhs h => hok ⟨lhs, by rwa [path] at h⟩, after]
      exact ⟨scopes, heap⟩
  | insert properties key value =>
    obtain ⟨scopes, heap⟩ := evalProperties_plain_after e.overwritten hd properties (s := s)
    simp only [Write.eval]
    by_cases hok : ∃ lhs, (evalProperties e properties s).exit = .ok lhs
    · obtain ⟨lhs, hok⟩ := hok
      rw [Coroutine.after_bind_ok (by rw [path]; exact hok), after]
      have notFound : callMemFunction lhs "insert" [(none, .string key), (none, value)] =
          pure (.error ("Member function 'insert' not found")) := by
        rcases (evalProperties_plain hd properties).2 lhs hok with rfl | rfl
        · cases lhs <;> first | rfl | cases hd
        · rfl
      rw [notFound]
      exact ⟨scopes, heap⟩
    · rw [Coroutine.after_bind_of_not_ok fun lhs h => hok ⟨lhs, by rwa [path] at h⟩, after]
      exact ⟨scopes, heap⟩

theorem writes_plain {name : Identifier} (hf : s.findEntity name = some e)
    (hd : e.isDictionary = false) (ws : List Write) :
    (s.writes name ws).scopes = s.scopes ∧
      Heap.SameBut e.overwritten s.heap (s.writes name ws).heap := by
  induction ws generalizing s with
  | nil => exact ⟨rfl, .refl _ _⟩
  | cons w ws ih =>
    obtain ⟨scopes, heap⟩ := write_plain hf hd w
    have hf' : ((w.eval name).after s).findEntity name = some e := by
      rw [State.findEntity, scopes]
      exact hf
    obtain ⟨scopes', heap'⟩ := ih hf'
    exact ⟨scopes'.trans scopes, heap.trans heap'⟩

/-- **Writes to a variable that is no dictionary leave alone what is separate from it.** -/
theorem unaffected {writer reader : Identifier} {v : Entity} (hw : s.findEntity writer = some e)
    (hd : e.isDictionary = false) (hr : s.findEntity reader = some v)
    (hs : s.heap.Separate e.overwritten v) : Unaffected s writer reader := by
  intro ws properties x
  obtain ⟨scopes, heap⟩ := writes_plain hw hd ws
  have hr' : (s.writes writer ws).findEntity reader = some v := by
    rw [State.findEntity, scopes]
    exact hr
  rw [reads_iff_readsFrom hr', reads_iff_readsFrom hr]
  exact readsFrom_congr hs heap properties x

end Plain

/-! ## The copy -/

/-- The same alternative, with other storage. -/
def Entity.withAddress (n : Nat) : Entity → Entity
  | .boolean _ => .boolean n
  | .integer _ => .integer n
  | .real _ => .real n
  | .string _ => .string n
  | .duration _ => .duration n
  | .array _ => .array n
  | .dictionary k _ => .dictionary k n
  | e => e

theorem withAddress_ne_void {e : Entity} (he : e ≠ .void) (n : Nat) : e.withAddress n ≠ .void := by
  cases e with
  | void => exact absurd rfl he
  | _ => exact nofun

theorem run_copy (e : Entity) (s : State) : copy e s = match e.storage with
    | some ⟨k, a⟩ => ⟨.ok (e.withAddress s.heap.next), [.alloc k (s.heap.cell k a)]⟩
    | none => ⟨.ok e, []⟩ := by
  cases e <;> rfl

section Construct

variable (host : Host) {type : FlowType} {s : State} {c e v : Entity}

theorem construct_of_not_dictionary (ht : ∀ k, type ≠ .dictionary k) :
    construct host type c = match defaultValue host type with
      | some default => pure (makeConstructor type default c)
      | none => Eval.throw (.std "bad_function_call") := by
  cases type with
  | dictionary k => exact absurd rfl (ht k)
  | _ => rfl

theorem makeConstructor_ok {default : Entity} (hv : c ≠ .void)
    (h : makeConstructor type default c = .ok v) : v = c ∧ c.type = type := by
  unfold makeConstructor at h
  split at h
  · exact absurd rfl hv
  · split at h
    next ht => exact ⟨(Except.ok.inj h).symm, ht⟩
    next => cases h

/-- Where nothing is converted, a constructor takes the value or leaves it. -/
theorem construct_plain (hv : c ≠ .void) (hd : c.isDictionary = false) :
    (construct host type c s).log = [] ∧
      ∀ v, (construct host type c s).exit = .ok (.ok v) → v = c := by
  by_cases ht : ∃ k, type = .dictionary k
  · obtain ⟨k, rfl⟩ := ht
    cases c with
    | void => exact absurd rfl hv
    | dictionary k a => cases hd
    | error what => exact ⟨rfl, fun v h => (Except.ok.inj (Exit.ok.inj h)).symm⟩
    | _ => exact ⟨rfl, fun v h => nomatch Exit.ok.inj h⟩
  · rw [construct_of_not_dictionary host fun k hk => ht ⟨k, hk⟩]
    cases defaultValue host type with
    | some default => exact ⟨rfl, fun v h => (makeConstructor_ok hv (Exit.ok.inj h)).1⟩
    | none => exact ⟨rfl, nofun⟩

/-- A dictionary is taken as it is, or made into one of another kind with the same entries. -/
theorem construct_dictionary {kind : DictionaryKind} {a : Nat} {r : EvalResult}
    (h : (construct host type (.dictionary kind a) s).exit = .ok r) (hr : r = .ok v) :
    ∃ kind' n, v = .dictionary kind' n ∧
      (n = a ∧ (construct host type (.dictionary kind a)).after s = s ∨
        n = s.heap.next ∧ (construct host type (.dictionary kind a)).after s =
          s.apply (.alloc .dictionary (s.heap.cell .dictionary a))) := by
  subst hr
  by_cases ht : ∃ k, type = .dictionary k
  · obtain ⟨k, rfl⟩ := ht
    have run : construct host (.dictionary k) (.dictionary kind a) =
        constructDictionary k (.dictionary kind a) := rfl
    rw [run, constructDictionary] at h
    rw [run, constructDictionary]
    by_cases hk : kind = k
    · rw [if_pos hk] at h ⊢
      cases h
      exact ⟨kind, a, rfl, .inl ⟨rfl, rfl⟩⟩
    · rw [if_neg hk] at h ⊢
      by_cases hk' : kind = .dictionary
      · rw [if_pos hk'] at h ⊢
        cases h
        exact ⟨k, _, rfl, .inr ⟨rfl, rfl⟩⟩
      · rw [if_neg hk'] at h
        cases h
  · rw [construct_of_not_dictionary host fun k hk => ht ⟨k, hk⟩] at h
    cases hd : defaultValue host type with
    | some default =>
      rw [hd] at h
      have hv : Entity.dictionary kind a ≠ .void := nofun
      have hc := (makeConstructor_ok hv (Exit.ok.inj h)).2
      exact absurd ⟨kind, hc.symm⟩ ht
    | none =>
      rw [hd] at h
      cases h

/-- `Void` gives the default value, or a new dictionary. -/
theorem construct_void (h : (construct host type .void s).exit = .ok (.ok v)) :
    (defaultValue host type = some v ∧ (construct host type .void).after s = s) ∨
      ∃ k, type = .dictionary k ∧ v = .dictionary k s.heap.next ∧
        (construct host type .void).after s = s.apply (.alloc .dictionary .empty) := by
  by_cases ht : ∃ k, type = .dictionary k
  · obtain ⟨k, rfl⟩ := ht
    cases h
    exact .inr ⟨k, rfl, rfl, rfl⟩
  · rw [construct_of_not_dictionary host fun k hk => ht ⟨k, hk⟩] at h ⊢
    cases hd : defaultValue host type with
    | some default =>
      rw [hd] at h
      cases h
      exact .inl ⟨rfl, rfl⟩
    | none =>
      rw [hd] at h
      cases h

theorem construct_plain_ok (hv : c ≠ .void) (hd : c.isDictionary = false)
    (h : (construct host type c s).exit = .ok (.ok v)) : v = c ∧ (construct host type c).after s = s := by
  obtain ⟨hlog, hvalue⟩ := @construct_plain host type s c hv hd
  exact ⟨hvalue v h, by rw [Coroutine.after, hlog, List.foldl_nil]⟩

/-- The copy is what the constructor is given. -/
theorem of_constructCopy_ok (h : (constructCopy host type e s).exit = .ok v) :
    ∃ c, (copy e s).exit = .ok c ∧ (construct host type c ((copy e).after s)).exit = .ok (.ok v) ∧
      (constructCopy host type e).after s = (construct host type c).after ((copy e).after s) := by
  rw [constructCopy] at h ⊢
  obtain ⟨c, hc, h⟩ := Coroutine.of_bind_ok h
  rw [Coroutine.after_bind_ok hc]
  obtain ⟨r, hr, h⟩ := Coroutine.of_bind_ok h
  rw [Coroutine.after_bind_ok hr]
  cases r with
  | error what => cases h
  | ok w =>
    cases h
    exact ⟨c, hc, hr, rfl⟩

/-- What a dictionary that was just copied is made into has the entries of the one that it was copied from. -/
theorem construct_copied {kind : DictionaryKind} {a : Nat}
    (h : (construct host type (.dictionary kind s.heap.next)
      (s.apply (.alloc .dictionary (s.heap.cell .dictionary a)))).exit = .ok (.ok v)) :
    ∃ kind' n, v = .dictionary kind' n ∧ s.heap.next ≤ n ∧
      ∀ t, (construct host type (.dictionary kind s.heap.next)).after
        (s.apply (.alloc .dictionary (s.heap.cell .dictionary a))) = t →
          t.scopes = s.scopes ∧ Heap.SameBut none s.heap t.heap ∧
            t.heap.cell .dictionary n = s.heap.cell .dictionary a := by
  obtain ⟨kind', n, hv, ⟨rfl, h⟩ | ⟨rfl, h⟩⟩ := construct_dictionary host h rfl
  · refine ⟨kind', _, hv, Nat.le_refl _, ?_⟩
    rw [h]
    rintro t rfl
    exact ⟨rfl, s.heap.sameBut_alloc _ _ _, Heap.alloc_cell_self _ _ _⟩
  · refine ⟨kind', _, hv, Nat.le_succ _, ?_⟩
    rw [h]
    rintro t rfl
    refine ⟨rfl, (s.heap.sameBut_alloc _ _ _).trans (Heap.sameBut_alloc _ _ _ _), ?_⟩
    exact (Heap.alloc_cell_self _ _ _).trans (Heap.alloc_cell_self _ _ _)

/-- **What a declared variable gets.** -/
theorem constructCopy_cases (h : (constructCopy host type e s).exit = .ok v) :
    (∃ k a, e.storage = some ⟨k, a⟩ ∧ e.isDictionary = false ∧ v = e.withAddress s.heap.next ∧
      (constructCopy host type e).after s = s.apply (.alloc k (s.heap.cell k a))) ∨
    (∃ kind a kind' n, e = .dictionary kind a ∧ v = .dictionary kind' n ∧ s.heap.next ≤ n ∧
      ((constructCopy host type e).after s).scopes = s.scopes ∧
      Heap.SameBut none s.heap ((constructCopy host type e).after s).heap ∧
      ((constructCopy host type e).after s).heap.cell .dictionary n = s.heap.cell .dictionary a) ∨
    e.storage = none ∧ (v = e ∧ e.isDictionary = false ∧ (constructCopy host type e).after s = s ∨
      (e = .void ∧ defaultValue host type = some v ∧ (constructCopy host type e).after s = s) ∨
      e = .void ∧ ∃ k, v = .dictionary k s.heap.next ∧
        (constructCopy host type e).after s = s.apply (.alloc .dictionary .empty)) := by
  obtain ⟨c, hc, hr, hafter⟩ := of_constructCopy_ok host h
  rw [hafter]
  have run := run_copy e s
  cases hst : e.storage with
  | none =>
    rw [hst] at run
    rw [run] at hc
    cases hc
    have after : (copy e).after s = s := by rw [Coroutine.after, run, List.foldl_nil]
    have hd : e.isDictionary = false := by
      cases e <;> first | rfl | cases hst
    rw [after] at hr ⊢
    refine .inr (.inr ⟨rfl, ?_⟩)
    by_cases hv : e = .void
    · subst hv
      rcases construct_void host hr with h | h
      · exact .inr (.inl ⟨rfl, h⟩)
      · obtain ⟨k, -, h⟩ := h
        exact .inr (.inr ⟨rfl, k, h⟩)
    · obtain ⟨rfl, h⟩ := construct_plain_ok host hv hd hr
      exact .inl ⟨rfl, hd, h⟩
  | some st =>
    obtain ⟨k, a⟩ := st
    rw [hst] at run
    rw [run] at hc
    cases hc
    have after : (copy e).after s = s.apply (.alloc k (s.heap.cell k a)) := by
      rw [Coroutine.after, run]
      rfl
    rw [after] at hr ⊢
    cases hd : e.isDictionary with
    | false =>
      have notVoid : e.withAddress s.heap.next ≠ .void :=
        withAddress_ne_void (fun he => by rw [he] at hst; cases hst) _
      have notDictionary : (e.withAddress s.heap.next).isDictionary = false := by
        cases e <;> first | rfl | cases hd
      obtain ⟨hv, h⟩ := construct_plain_ok host notVoid notDictionary hr
      exact .inl ⟨k, a, rfl, rfl, hv, h⟩
    | true =>
      cases e with
      | dictionary kind d =>
        cases hst
        obtain ⟨kind', n, hv, hn, h⟩ := construct_copied host hr
        exact .inr (.inl ⟨kind, a, kind', n, rfl, hv, hn, h _ rfl⟩)
      | _ => cases hd

theorem evalVariableDeclaration_ok {name typeName : String} {m : Eval Entity}
    (h : (evalVariableDeclaration host name typeName m s).exit = .ok ()) :
    ∃ type arg v, s.findType typeName = some type ∧ (m s).exit = .ok arg ∧
      (constructCopy host type arg (m.after s)).exit = .ok v ∧
      (evalVariableDeclaration host name typeName m).after s =
        ((constructCopy host type arg).after (m.after s)).declare name v := by
  rw [evalVariableDeclaration] at h ⊢
  obtain ⟨⟨⟩, hu, h⟩ := Coroutine.of_bind_ok h
  have undeclared : (checkUndeclared name).after s = s := by
    rw [checkUndeclared, Coroutine.after, Eval.gets, Coroutine.gets_bind]
    split <;> rfl
  rw [Coroutine.after_bind_ok hu, undeclared]
  rw [undeclared, Eval.gets, Coroutine.gets_bind] at h
  cases hf : s.findType typeName with
  | none =>
    rw [hf] at h
    cases h
  | some type =>
    rw [hf] at h
    obtain ⟨arg, ha, h⟩ := Coroutine.of_bind_ok h
    obtain ⟨v, hv, -⟩ := Coroutine.of_bind_ok h
    refine ⟨type, arg, v, rfl, ha, hv, ?_⟩
    rw [Coroutine.after, Eval.gets, Coroutine.gets_bind, hf, ← Coroutine.after,
      Coroutine.after_bind_ok ha, Coroutine.after_bind_ok hv]
    rfl

end Construct

/-! ## Names -/

/-- Contract of what declares nothing. -/
def sameNames : Contract State Action where
  returns s _ t := t.scopes.map Scope.entries = s.scopes.map Scope.entries
  throws s _ t := t.scopes.map Scope.entries = s.scopes.map Scope.entries
  cuts s _ t := t.scopes.map Scope.entries = s.scopes.map Scope.entries
  returns_refl _ := rfl
  throws_refl _ := rfl
  cuts_refl _ := rfl
  returns_trans h h' := h'.trans h
  throws_trans h h' := h'.trans h
  cuts_trans h h' := h'.trans h

theorem sameNames_admits : Admits sameNames where
  action s a ha := by
    cases a with
    | assign | declare | push | pop | returnValue | breakLoop | execute | timeout => exact ha.elim
    | _ => rfl
  tryError _ _ := rfl

theorem findEntity_of_entries {s t : State} (h : t.scopes.map Scope.entries = s.scopes.map Scope.entries)
    (name : Identifier) : t.findEntity name = s.findEntity name := by
  have eq : ∀ u : State, u.findEntity name =
      (u.scopes.map Scope.entries).findSome? fun entries => entries.lookup name := by
    intro u
    rw [List.findSome?_map]
    rfl
  rw [eq, eq, h]

theorem write_sameNames (name : Identifier) (w : Write) : (w.eval name).Meets sameNames := by
  cases w with
  | new k c => exact .bind (alloc_meets sameNames_admits k c) fun _ => .pure _
  | assign properties value =>
    refine .bind (evalIdentifierPath_meets sameNames_admits _) fun _ => .bind (.gets _) fun _ =>
      .bind (.pure _) fun _ => .bind ?_ fun _ => .pure _
    exact .bind (.gets _) fun _ => .bind (.perform fun _ => rfl) fun _ => .pure _
  | insert properties key value =>
    exact .bind (evalIdentifierPath_meets sameNames_admits _) fun _ =>
      .bind (callMemFunction_meets sameNames_admits _ _ _) fun _ =>
      .bind (ensureValue_meets _) fun _ => .pure _

theorem findEntity_writes (s : State) (writer name : Identifier) (ws : List Write) :
    (s.writes writer ws).findEntity name = s.findEntity name := by
  induction ws generalizing s with
  | nil => rfl
  | cons w ws ih =>
    refine (ih _).trans (findEntity_of_entries ?_ name)
    have := write_sameNames writer w s
    split at this <;> exact this

/-! ## Independence -/

/-- The storage of all variables and of all default values exists. -/
structure State.Sound (host : Host) (s : State) : Prop where
  entries : ∀ name e, s.findEntity name = some e → s.heap.Separate none e
  defaults : ∀ type e, defaultValue host type = some e → s.heap.Separate none e

theorem findEntity_declare (s : State) (b name : Identifier) (v : Entity) :
    (s.declare b v).findEntity name = if name = b then some v else s.findEntity name := by
  simp only [State.findEntity, State.declare, State.scopes, List.findSome?_cons, Scope.findEntity,
    List.lookup_cons]
  by_cases hn : name = b
  · simp [hn]
  · have hne : (name == b) = false := beq_eq_false_iff_ne.2 hn
    simp [hne, hn]

theorem Scope.mem_of_findEntity {scope : Scope} {name : Identifier} {e : Entity}
    (h : scope.findEntity name = some e) : (name, e) ∈ scope.entries := by
  obtain ⟨l, l', hl, -⟩ := List.lookup_eq_some_iff.1 h
  rw [hl]
  exact List.mem_append_right l List.mem_cons_self

theorem contains_atom {h : Heap} {e : Entity} (he : e.isAtom) {part : Storage} :
    h.Contains e part ↔ e.storage = some part := by
  constructor
  · intro hc
    cases hc with
    | here hp => exact hp
    | child hx _ =>
      rw [children_atom h he] at hx
      cases hx
  · exact fun hp => .here hp

/-- Nothing but its own storage is part of an entity with no others in it. -/
theorem separate_leaf {h : Heap} {e : Entity} (hc : h.children e = [])
    (he : ∀ st, e.storage = some st → st.address < h.next) : h.Separate none e := by
  intro part hp
  cases hp with
  | here hp => exact ⟨he part hp, nofun⟩
  | child hx _ =>
    rw [show h.graph.children e = [] from hc] at hx
    cases hx

/-- A new interpreter with one variable is sound, also when there is more in the heap. -/
theorem sound_declare_fresh {host : Host} {name : String} {e : Entity} {h : Heap} (hnext : 1 < h.next)
    (harray : h.cell .array 0 = []) (he : h.Separate none e) :
    ({ State.fresh [] with heap := h }.declare name e).Sound host := by
  constructor
  · intro name' e' hf
    rw [findEntity_declare] at hf
    split at hf
    · cases hf
      exact he
    · obtain ⟨scope, hscope, hf⟩ := List.exists_of_findSome?_eq_some hf
      cases List.mem_singleton.1 hscope
      have hm : (name', e') ∈ [("instance_id", Entity.integer 1), ("str_format", .freeFunction .strFormat),
        ("panic", .freeFunction .panic), ("println", .freeFunction .println)] := Scope.mem_of_findEntity hf
      simp only [List.mem_cons, Prod.mk.injEq, List.not_mem_nil, or_false] at hm
      rcases hm with ⟨-, rfl⟩ | ⟨-, rfl⟩ | ⟨-, rfl⟩ | ⟨-, rfl⟩
      all_goals refine separate_leaf rfl fun st hst => ?_
      all_goals cases hst
      exact hnext
  · intro type e' hd
    have children : h.children e' = [] := by
      cases type <;> cases hd <;> first | rfl | exact harray
    refine separate_leaf children fun st hst => ?_
    have address : st.address = 0 := by cases type <;> cases hd <;> cases hst <;> rfl
    rw [address]
    exact Nat.zero_lt_of_lt hnext

/-- That holds for one with a default value, too. -/
theorem sound_variableState {host : Host} {name : String} {e : Entity}
    (hc : (State.fresh []).heap.children e = []) (he : ∀ st, e.storage = some st → st.address = 0) :
    (variableState name e).Sound host := by
  refine sound_declare_fresh (Nat.lt_succ_self 1) rfl (separate_leaf hc fun st hst => ?_)
  rw [he st hst]
  exact Nat.zero_lt_succ 1

section Independence

variable {s : State} {e v : Entity}

/-- The copy of a value that is no dictionary has storage of its own, and the rest of it is not
written to with the original. -/
theorem separate_copy {h : Heap} {k : Kind} {a : Nat} {x : Value} (hst : e.storage = some ⟨k, a⟩)
    (hd : e.isDictionary = false) (hs : h.Separate none e) (hx : h.HasValue e x) :
    (h.alloc k (h.cell k a)).Separate e.overwritten (e.withAddress h.next) := by
  have ha : a < h.next := (hs ⟨k, a⟩ (.here hst)).1
  have storage : (e.withAddress h.next).storage = some ⟨k, h.next⟩ := by
    cases e <;> cases hst <;> rfl
  have children : (h.alloc k (h.cell k a)).graph.children (e.withAddress h.next) =
      h.graph.children e := by
    cases e with
    | dictionary kind d => cases hd
    | array d =>
      cases hst
      exact h.alloc_cell_self .array (h.cell .array a)
    | boolean | integer | real | string | duration => rfl
    | _ => cases hst
  intro part hp
  cases hp with
  | here hp =>
    cases storage.symm.trans hp
    refine ⟨Nat.lt_succ_self _, fun hw => ?_⟩
    cases hst.symm.trans (storage_of_overwritten hw.symm)
    exact Nat.lt_irrefl _ ha
  | child hy hp =>
    rw [children] at hy
    have below := hs.child hy
    have hp := (below.contains_iff (h.sameBut_alloc none _ _)).1 hp
    refine ⟨(below part hp).1.trans (Nat.lt_succ_self _), fun hw => ?_⟩
    exact hx.acyclic hy ((contains_iff hw.symm).1 hp)

/-- **A variable that got a copy of no dictionary is independent.** -/
theorem independent_of_plain (host : Host) {type : FlowType} {a b : Identifier} {x : Value}
    (hab : a ≠ b) (hs : s.Sound host) (ha : s.findEntity a = some e) (hx : s.heap.HasValue e x)
    (hd : e.isDictionary = false) (h : (constructCopy host type e s).exit = .ok v) :
    Independent (((constructCopy host type e).after s).declare b v) a b := by
  have sound := hs.entries a e ha
  have bound : ∀ t : State, (t.declare b v).findEntity b = some v := fun t => by
    rw [findEntity_declare, if_pos rfl]
  have kept : ∀ t : State, t.scopes = s.scopes → (t.declare b v).findEntity a = some e := by
    intro t ht
    rw [findEntity_declare, if_neg hab, ← ha, State.findEntity, ht, State.findEntity]
  have plain : ∀ t : State, t.scopes = s.scopes → v.isDictionary = false →
      t.heap.Separate v.overwritten e → t.heap.Separate e.overwritten v →
      Independent (t.declare b v) a b := fun t ht hv he hb =>
    ⟨unaffected (bound t) hv (kept t ht) he, unaffected (kept t ht) hd (bound t) hb⟩
  have none_of : e.storage = none → e.overwritten = none := fun h => by
    cases e <;> first | rfl | cases h
  rcases constructCopy_cases host h with ⟨k, c, hst, -, rfl, ht⟩ | ⟨_, _, _, _, rfl, -⟩ |
    ⟨hst, ⟨rfl, -, ht⟩ | ⟨rfl, hv, ht⟩ | ⟨rfl, k, rfl, ht⟩⟩
  · have storage : (e.withAddress s.heap.next).storage = some ⟨k, s.heap.next⟩ := by
      cases e <;> cases hst <;> rfl
    have notDictionary : (e.withAddress s.heap.next).isDictionary = false := by
      cases e <;> first | rfl | cases hd
    rw [ht]
    refine plain (s.apply (.alloc k (s.heap.cell k c))) rfl notDictionary (fun part hp => ?_)
      (separate_copy hst hd sound hx)
    have hb := s.heap.sameBut_alloc none k (s.heap.cell k c)
    have hlt := (sound part ((sound.contains_iff hb).1 hp)).1
    refine ⟨hlt.trans_le hb.next, fun hw => ?_⟩
    cases storage.symm.trans (storage_of_overwritten hw.symm)
    exact Nat.lt_irrefl _ hlt
  · cases hd
  · rw [ht]
    have same : s.heap.Separate v.overwritten v := by
      rw [none_of hst]
      exact sound
    exact plain s rfl hd same same
  · rw [ht]
    have notDictionary : v.isDictionary = false := by
      cases type <;> cases hv <;> rfl
    refine plain s rfl notDictionary (fun part hp => ?_) (hs.defaults type v hv)
    exact nomatch (contains_atom rfl).1 hp
  · rw [ht]
    constructor
    · intro ws properties y
      have here := kept (s.apply (.alloc .dictionary .empty)) rfl
      rw [reads_iff_readsFrom ((findEntity_writes _ b a ws).trans here), reads_iff_readsFrom here,
        readsFrom_atom rfl, readsFrom_atom rfl]
      rfl
    · refine unaffected (kept _ rfl) hd (bound _) fun part hp => ?_
      cases hp with
      | here hp =>
        cases hp
        exact ⟨Nat.lt_succ_self _, nofun⟩
      | child hy _ =>
        have hy : _ ∈ (((s.heap.alloc .dictionary .empty).cell .dictionary s.heap.next).entries.map
          Prod.snd) := hy
        rw [Heap.alloc_cell_self] at hy
        cases hy

/-- There is always another name for an entry. -/
theorem exists_entryName (keys : List String) : ∃ z, isEntryName z ∧ z ∉ keys := by
  obtain ⟨z, hz⟩ := Infinite.exists_notMem_finset ("size" :: "insert" :: keys).toFinset
  simp only [List.mem_toFinset, List.mem_cons, not_or] at hz
  exact ⟨z, ⟨hz.1, hz.2.1⟩, hz.2.2⟩

theorem write_insert {name : Identifier} {properties : List Identifier} {k : DictionaryKind}
    {d : Nat} (hr : s.resolve ⟨name, properties⟩ = some (.dictionary k d)) (key : Nat) (value : Entity) :
    ((Write.insert properties key value).eval name).after s = s.apply (.insert d key value) := by
  have run := evalIdentifierPath_of_resolve hr
  have after : (evalIdentifierPath ⟨name, properties⟩).after s = s := by
    rw [Coroutine.after, run, List.foldl_nil]
  rw [Write.eval, Coroutine.after_bind_ok (by rw [run]), after]
  rfl

theorem insert_cell_self (h : Heap) (d key : Nat) (value : Entity) :
    (h.insert d key value).cell .dictionary d =
      (h.cell .dictionary d).insert (h.cell .string key) value :=
  Heap.write_cell_self _ _ _ _

theorem insert_cell_of_ne (h : Heap) {d d' : Nat} (hd : d' ≠ d) (key : Nat) (value : Entity) :
    (h.insert d key value).cell .dictionary d' = h.cell .dictionary d' := by
  refine (Heap.write_cell_of_ne _ _ fun he => hd (Storage.mk.inj he).2).trans ?_
  exact Heap.write_cell_of_ne _ _ nofun

/-- An insertion under a new key. -/
theorem writes_insert {name : Identifier} {properties : List Identifier} {k : DictionaryKind}
    {d : Nat} (hr : s.resolve ⟨name, properties⟩ = some (.dictionary k d)) (z : String)
    (value : Entity) {t : State}
    (ht : s.writes name [.new .string z, .insert properties s.heap.next value] = t) :
    t.heap.cell .dictionary d = (s.heap.cell .dictionary d).insert z value ∧
      ∀ d', d' ≠ d → t.heap.cell .dictionary d' = s.heap.cell .dictionary d' := by
  have cell : ∀ d', (s.apply (.alloc .string z)).heap.cell .dictionary d' =
      s.heap.cell .dictionary d' :=
    fun d' => s.heap.write_cell_of_kind (by decide : Kind.dictionary ≠ .string) s.heap.next z d'
  have key : (s.apply (.alloc .string z)).heap.cell .string s.heap.next = z :=
    s.heap.alloc_cell_self .string z
  have resolve : (s.apply (.alloc .string z)).resolve ⟨name, properties⟩ = some (.dictionary k d) := by
    rw [← hr, State.resolve, State.resolve]
    simp only [resolveProperties_congr cell]
    rfl
  have run : s.writes name [.new .string z, .insert properties s.heap.next value] =
      (s.apply (.alloc .string z)).apply (.insert d s.heap.next value) := write_insert resolve _ _
  rw [← ht, run]
  refine ⟨?_, fun d' hd => ?_⟩
  · refine (insert_cell_self _ _ _ _).trans ?_
    rw [cell, key]
  · exact (insert_cell_of_ne _ hd _ _).trans (cell d')

/-- **A variable that got a copy of a dictionary is not independent**: with the original put into an
entry of the copy, an insertion through this entry is one into the original. -/
theorem not_unaffected_of_dictionary {a b : Identifier} {kind kind' : DictionaryKind} {d n : Nat}
    {x : Value} (ha : s.findEntity a = some (.dictionary kind d))
    (hb : s.findEntity b = some (.dictionary kind' n)) (hdn : d ≠ n)
    (hc : s.heap.cell .dictionary n = s.heap.cell .dictionary d)
    (hx : s.heap.HasValue (.dictionary kind d) x) : ¬ Unaffected s b a := by
  intro hu
  obtain ⟨z, hz, hkeys⟩ := exists_entryName ((s.heap.cell .dictionary d).entries.map Prod.fst)
  have absent : (s.heap.cell .dictionary d).find? z = none := by
    cases hf : (s.heap.cell .dictionary d).find? z with
    | none => rfl
    | some y => exact absurd (List.mem_map_of_mem (f := Prod.fst) (SortedMap.mem_of_find? hf)) hkeys
  -- `b.insert(z, a)`
  generalize ht : s.writes b [.new .string z, .insert [] s.heap.next (.dictionary kind d)] = t
  have hroot : s.resolve ⟨b, []⟩ = some (.dictionary kind' n) := by simp [State.resolve, hb,
    resolveProperties]
  obtain ⟨copied, other⟩ := writes_insert hroot z _ ht
  have entry : t.resolve ⟨b, [z]⟩ = some (.dictionary kind d) := by
    have hb' : t.findEntity b = some (.dictionary kind' n) := by rw [← ht, findEntity_writes, hb]
    have found : (t.heap.cell .dictionary n).find? z = some (.dictionary kind d) := by
      rw [copied, hc]
      exact SortedMap.find?_insert_self absent _
    simp [State.resolve, hb', resolveProperties, hz.1, hz.2, found]
  -- `b.z.insert(z, ..)`
  generalize hu' : t.writes b [.new .string z, .insert [z] t.heap.next .void] = u
  obtain ⟨original, -⟩ := writes_insert entry z _ hu'
  have all : s.writes b ([.new .string z, .insert [] s.heap.next (.dictionary kind d)] ++
      [.new .string z, .insert [z] t.heap.next .void]) = u := by
    rw [writes_append, ht, hu']
  have before : s.Reads ⟨a, []⟩ x := (reads_iff_readsFrom ha x).2 (readsFrom_nil.2 hx)
  have after : u.Reads ⟨a, []⟩ x := all ▸ (hu _ [] x).2 before
  have ha' : u.findEntity a = some (.dictionary kind d) := by rw [← all, findEntity_writes, ha]
  have value : u.heap.HasValue (.dictionary kind d) x :=
    readsFrom_nil.1 ((reads_iff_readsFrom ha' x).1 after)
  -- the keys of `a` are part of its value, and there is a new one
  have keys : (u.heap.cell .dictionary d).entries.map Prod.fst =
      (s.heap.cell .dictionary d).entries.map Prod.fst :=
    (Label.dictionary.inj (value.label.symm.trans hx.label)).2
  have new : (u.heap.cell .dictionary d).find? z = some .void := by
    rw [original, other d hdn]
    exact SortedMap.find?_insert_self absent _
  refine hkeys (keys ▸ List.mem_map_of_mem (SortedMap.mem_of_find? new))

end Independence

/-! ## The declaration -/

section Declaration

variable (host : Host) (depth : Nat) {s : State} {a b T : Identifier} {e : Entity}

/-- `b : T = a` -/
def initialised (a b T : Identifier) : WorkflowStatement :=
  .variableDeclaration b T (some (IdentifierPath.toExpression ⟨a, []⟩))

theorem run_variableDeclaration (b T : Identifier) (e : Option Expression) (s : State) :
    (runStatement host depth (.variableDeclaration b T e) s).exit =
        (evalVariableDeclaration host b T (e.elim (pure .void)
          (evalExpression host (evalInvocations host depth))) s).exit ∧
      (runStatement host depth (.variableDeclaration b T e)).after s =
        (evalVariableDeclaration host b T (e.elim (pure .void)
          (evalExpression host (evalInvocations host depth)))).after s := by
  have run := run_evalStatement host (evalLeaves host (evalInvocations host depth))
    (fun _ => nofun : ∀ block, WorkflowStatement.variableDeclaration b T e ≠ .ifBlock block)
    (fun _ => nofun) s
  rw [runStatement, Coroutine.after, run]
  exact ⟨rfl, rfl⟩

/-- What such a declaration leaves behind. -/
theorem initialised_ok (ha : s.findEntity a = some e)
    (hok : (runStatement host depth (initialised a b T) s).exit = .ok ()) :
    ∃ type v, (constructCopy host type e s).exit = .ok v ∧
      (runStatement host depth (initialised a b T)).after s =
        ((constructCopy host type e).after s).declare b v := by
  have path : evalIdentifierPath ⟨a, []⟩ s = ⟨.ok e, []⟩ := by
    refine evalIdentifierPath_of_resolve ?_
    simp [State.resolve, ha, resolveProperties]
  have unchanged : (evalIdentifierPath ⟨a, []⟩).after s = s := by
    rw [Coroutine.after, path, List.foldl_nil]
  obtain ⟨exit, after⟩ := run_variableDeclaration host depth b T
    (some (IdentifierPath.toExpression ⟨a, []⟩)) s
  rw [Option.elim, evalExpression_path] at exit after
  rw [initialised, exit] at hok
  obtain ⟨type, arg, v, -, harg, hv, ht⟩ := evalVariableDeclaration_ok host hok
  rw [path] at harg
  cases harg
  rw [unchanged] at hv ht
  exact ⟨type, v, hv, after.trans ht⟩

/-- The copy of a dictionary is not independent. -/
theorem not_independent_of_dictionary {host : Host} {type : FlowType} {a b : Identifier}
    {e v : Entity} {x : Value} (hab : a ≠ b) (hs : s.Sound host) (ha : s.findEntity a = some e)
    (hx : s.heap.HasValue e x) (hv : (constructCopy host type e s).exit = .ok v)
    (hd : e.isDictionary) :
    ¬ Independent (((constructCopy host type e).after s).declare b v) a b := by
  intro hi
  rcases constructCopy_cases host hv with ⟨_, _, _, hd', -⟩ |
    ⟨kind, d, kind', n, rfl, rfl, hn, scopes, heap, cell⟩ |
    ⟨hst, ⟨-, hd', -⟩ | ⟨rfl, -⟩ | ⟨rfl, -⟩⟩
  · cases hd.symm.trans hd'
  · have sound := hs.entries a _ ha
    have hlt : d < s.heap.next := (sound ⟨.dictionary, d⟩ (.here rfl)).1
    generalize (constructCopy host type (.dictionary kind d)).after s = t at *
    have here : (t.declare b (.dictionary kind' n)).findEntity a = some (.dictionary kind d) := by
      rw [findEntity_declare, if_neg hab, ← ha, State.findEntity, scopes, State.findEntity]
    have copied : (t.declare b (.dictionary kind' n)).findEntity b = some (.dictionary kind' n) := by
      rw [findEntity_declare, if_pos rfl]
    have same : t.heap.cell .dictionary n = t.heap.cell .dictionary d := by
      rw [cell, sound.cell heap rfl]
    have value : t.heap.HasValue (.dictionary kind d) x := (sound.hasValue_iff heap).2 hx
    exact not_unaffected_of_dictionary here copied (Nat.ne_of_lt (hlt.trans_le hn)) same value hi.1
  · cases hd.symm.trans hd'
  · cases hd
  · cases hd

/-- **A declaration with an initialiser gives an independent copy if, and only if, the value is not
kept as a dictionary.** -/
theorem copies_independent_iff (host : Host) (depth : Nat) (s : State) (a b T : Identifier)
    (e : Entity) (x : Value) (hab : a ≠ b) (hs : s.Sound host) (ha : s.findEntity a = some e)
    (hx : s.heap.HasValue e x)
    (hok : (runStatement host depth (initialised a b T) s).exit = .ok ()) :
    Independent ((runStatement host depth (initialised a b T)).after s) a b ↔
      e.isDictionary = false := by
  obtain ⟨type, v, hv, after⟩ := initialised_ok host depth ha hok
  rw [after]
  constructor
  · intro hi
    by_contra hd
    exact not_independent_of_dictionary hab hs ha hx hv (Bool.eq_true_of_not_eq_false hd) hi
  · intro hd
    exact independent_of_plain host hab hs ha hx hd hv

/-- What `a : array = [[], 1]` may leave behind. -/
def nestedState : State :=
  let heap := ((State.fresh []).heap.alloc .array []).alloc .array [.array 2, .integer 1]
  { State.fresh [] with heap }.declare "a" (.array 3)

theorem sound_nestedState (host : Host) : nestedState.Sound host := by
  refine sound_declare_fresh (by decide : 1 < 4) rfl fun part hp => ?_
  cases hp with
  | here hp => cases hp; exact ⟨by decide, nofun⟩
  | @child _ x hx hp =>
    have hx : x ∈ [.array 2, .integer 1] := hx
    have leaf : ∀ x ∈ [.array 2, .integer 1], nestedState.heap.Separate none x := by
      simp only [List.mem_cons, List.not_mem_nil, or_false, forall_eq_or_imp, forall_eq]
      constructor <;> exact separate_leaf rfl (by rintro _ ⟨⟩; decide)
    exact leaf x hx part hp

/-- The nested array is part of both arrays, and yet nothing that is written through one of them is
seen in the other. -/
theorem array_copy_independent :
    Independent ((runStatement .plain 0 (initialised "a" "b" "array")).after nestedState) "a" "b" :=
  (copies_independent_iff .plain 0 nestedState "a" "b" "array" (.array 3)
    (.node .array [.node .array [], .node (.integer 1) []]) (by decide) (sound_nestedState _) rfl
    (.node (.cons (.node .nil) (.cons (.node .nil) .nil))) rfl).mpr rfl

/-- `a = {}; b : dictionary = a; b.insert("z", a); b.z.insert("z", ..)` inserts into `a`. -/
theorem dictionary_copy_shared :
    ¬ ∀ host depth s a b T e x, a ≠ b → s.Sound host → s.findEntity a = some e →
      s.heap.HasValue e x → (runStatement host depth (initialised a b T) s).exit = .ok () →
      Independent ((runStatement host depth (initialised a b T)).after s) a b := by
  intro h
  have sound : (variableState "a" (.dictionary .dictionary 0)).Sound .plain :=
    sound_variableState rfl (by rintro _ ⟨⟩; rfl)
  have value : (variableState "a" (.dictionary .dictionary 0)).heap.HasValue
    (.dictionary .dictionary 0) (.node (.dictionary .dictionary []) []) := .node .nil
  have independent := h .plain 0 (variableState "a" (.dictionary .dictionary 0)) "a" "b" "dictionary"
    (.dictionary .dictionary 0) _ (by decide) sound rfl value rfl
  obtain ⟨type, v, hv, after⟩ := initialised_ok .plain 0 (s := variableState "a" (.dictionary .dictionary 0))
    (a := "a") (b := "b") (T := "dictionary") rfl rfl
  rw [after] at independent
  exact not_independent_of_dictionary (by decide) sound rfl value hv rfl independent

end Declaration

end EzCpp.Flow
