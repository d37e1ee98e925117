import EzCpp.Flow.Reachable
import EzCpp.Lib.Descent

/-!
# Values that end

A representation goes into the elements of arrays and the entries of dictionaries, and so does an
export, but for dictionaries of other types. Where a value contains itself it does not end. At every
moment of every run this is the only case: the recursion gets as many steps as there is storage, and on
a way into a value that ends no storage comes twice (`ends_iff_of_run`).

An element is made before the array it is in, and an entry before its dictionary. What is assigned to
an array or inserted into a dictionary may be made later, and only so can a value come to contain itself
(`finite_of_run`).
-/

namespace EzCpp.Flow

open EzCpp.Lib Ast Relation

/-! ## What is gone into -/

/-- What a representation goes into. -/
def Heap.printed (h : Heap) : Entity → List Entity
  | .array a => h.cell .array a
  | .dictionary _ a => (h.cell .dictionary a).entries.map Prod.snd
  | _ => []

/-- What an export goes into. -/
def Heap.exported (h : Heap) : Entity → List Entity
  | .array a => h.cell .array a
  | .dictionary .dictionary a => (h.cell .dictionary a).entries.map Prod.snd
  | _ => []

/-- Nothing, or what is in the storage of the entity. -/
def Heap.Enters (h : Heap) (children : Entity → List Entity) : Prop :=
  ∀ e, children e ≠ [] →
    ∃ st, e.storage = some st ∧ children e = st.kind.parts (h.cell st.kind st.address)

theorem Heap.enters_printed (h : Heap) : h.Enters h.printed := by
  intro e he
  cases e with
  | array a => exact ⟨⟨.array, a⟩, rfl, rfl⟩
  | dictionary k a => exact ⟨⟨.dictionary, a⟩, rfl, rfl⟩
  | _ => exact absurd rfl he

theorem Heap.enters_exported (h : Heap) : h.Enters h.exported := by
  intro e he
  cases e with
  | array a => exact ⟨⟨.array, a⟩, rfl, rfl⟩
  | dictionary k a =>
    cases k with
    | dictionary => exact ⟨⟨.dictionary, a⟩, rfl, rfl⟩
    | _ => exact absurd rfl he
  | _ => exact absurd rfl he

/-! ## Enough steps -/

section Optional

variable {α β : Type} {f g : α → Option β} {l : List α}

theorem mapM_ne_none : l.mapM f ≠ none ↔ ∀ x ∈ l, f x ≠ none := by
  induction l with
  | nil => simp
  | cons x l ih =>
    rw [List.mapM_cons, List.forall_mem_cons, ← ih]
    cases f x <;> cases l.mapM f <;> simp

theorem mapM_eq_of_le (h : ∀ x ∈ l, f x ≠ none → g x = f x) (hf : l.mapM f ≠ none) :
    l.mapM g = l.mapM f := by
  rw [mapM_ne_none] at hf
  induction l with
  | nil => rfl
  | cons x l ih =>
    obtain ⟨hx, hl⟩ := List.forall_mem_cons.mp hf
    rw [List.mapM_cons, List.mapM_cons, h x List.mem_cons_self hx,
      ih (fun y hy => h y (List.mem_cons_of_mem x hy)) hl]

theorem bind_some_ne_none {o : Option α} (g : α → β) :
    (o.bind fun a => some (g a)) ≠ none ↔ o ≠ none := by
  cases o <;> simp

end Optional

section Steps

variable (host : Host) (h : Heap) {n m : Nat}

theorem representation_ne_none {e : Entity} :
    representation host h n e ≠ none ↔ Ends h.printed n e := by
  induction n generalizing e with
  | zero => exact ⟨fun hn => absurd rfl hn, fun he => absurd he id⟩
  | succ n ih =>
    cases e with
    | array a =>
      refine (bind_some_ne_none (o := (h.cell .array a).mapM (representation host h n)) _).trans ?_
      rw [mapM_ne_none]
      exact forall₂_congr fun x _ => ih
    | dictionary k a =>
      refine (bind_some_ne_none (o := (h.cell .dictionary a).entries.mapM fun entry => do
        pure (entry.1 ++ "=" ++ (← representation host h n entry.2))) _).trans ?_
      rw [mapM_ne_none, Ends, Heap.printed, List.forall_mem_map]
      exact forall₂_congr fun entry _ => (bind_some_ne_none _).trans ih
    | _ => exact ⟨fun _ => nofun, fun _ => nofun⟩

theorem toJson_ne_none {e : Entity} : toJson h n e ≠ none ↔ Ends h.exported n e := by
  induction n generalizing e with
  | zero => exact ⟨fun hn => absurd rfl hn, fun he => absurd he id⟩
  | succ n ih =>
    cases e with
    | array a =>
      refine (bind_some_ne_none (o := (h.cell .array a).mapM (toJson h n)) _).trans ?_
      rw [mapM_ne_none]
      exact forall₂_congr fun x _ => ih
    | dictionary k a =>
      cases k with
      | dictionary =>
        refine (bind_some_ne_none (o := (h.cell .dictionary a).entries.mapM fun entry => do
          pure ((← toJson h n entry.2).map fun v => (entry.1, v))) _).trans ?_
        rw [mapM_ne_none, Ends, Heap.exported, List.forall_mem_map]
        exact forall₂_congr fun entry _ => (bind_some_ne_none _).trans ih
      | _ => exact ⟨fun _ => nofun, fun _ => nofun⟩
    | _ => exact ⟨fun _ => nofun, fun _ => nofun⟩

/-- More steps change nothing about a representation that ends. -/
theorem representation_eq_of_le {e : Entity} (hn : representation host h n e ≠ none) (hm : n ≤ m) :
    representation host h m e = representation host h n e := by
  induction n generalizing e m with
  | zero => exact absurd rfl hn
  | succ n ih =>
    obtain ⟨m, rfl⟩ := Nat.exists_eq_add_one_of_ne_zero (Nat.ne_of_gt (Nat.zero_lt_of_lt hm))
    have hle := Nat.le_of_succ_le_succ hm
    cases e with
    | array a =>
      refine congrArg (fun o : Option (List String) =>
        o.bind fun elements => some ("[" ++ ", ".intercalate elements ++ "]")) ?_
      exact mapM_eq_of_le (fun x _ hx => ih hx hle) ((bind_some_ne_none _).mp hn)
    | dictionary k a =>
      refine congrArg (fun o : Option (List String) =>
        o.bind fun elements => some ("(" ++ ", ".intercalate elements ++ ")")) ?_
      refine mapM_eq_of_le (fun entry _ hentry => ?_) ((bind_some_ne_none _).mp hn)
      exact congrArg (fun o : Option String => o.bind fun text => some (entry.1 ++ "=" ++ text))
        (ih ((bind_some_ne_none _).mp hentry) hle)
    | _ => rfl

/-- More steps change nothing about an export that ends. -/
theorem toJson_eq_of_le {e : Entity} (hn : toJson h n e ≠ none) (hm : n ≤ m) :
    toJson h m e = toJson h n e := by
  induction n generalizing e m with
  | zero => exact absurd rfl hn
  | succ n ih =>
    obtain ⟨m, rfl⟩ := Nat.exists_eq_add_one_of_ne_zero (Nat.ne_of_gt (Nat.zero_lt_of_lt hm))
    have hle := Nat.le_of_succ_le_succ hm
    cases e with
    | array a =>
      refine congrArg (fun o : Option (List (Option Json)) =>
        o.bind fun elements => some (some (Json.array (elements.filterMap fun v => v)))) ?_
      exact mapM_eq_of_le (fun x _ hx => ih hx hle) ((bind_some_ne_none _).mp hn)
    | dictionary k a =>
      cases k with
      | dictionary =>
        refine congrArg (fun o : Option (List (Option (String × Json))) =>
          o.bind fun members => some (some (Json.object (members.filterMap fun m => m)))) ?_
        refine mapM_eq_of_le (fun entry _ hentry => ?_) ((bind_some_ne_none _).mp hn)
        exact congrArg (fun o : Option (Option Json) => o.bind fun v => some (v.map fun v => (entry.1, v)))
          (ih ((bind_some_ne_none _).mp hentry) hle)
      | _ => rfl
    | _ => rfl

end Steps

/-! ## Ways into a value -/

section Ways

variable {l : List Action} {s : State} {children : Entity → List Entity} {e x y : Entity}

/-- The address of the storage, where there is some. -/
def Entity.addressOf (e : Entity) : Nat := (e.storage.map Storage.address).getD 0

theorem addressOf_eq {st : Storage} (h : e.storage = some st) : e.addressOf = st.address := by
  rw [Entity.addressOf, h]
  rfl

theorem known_child (hs : s.Stored l) (hc : s.heap.Enters children) (he : e.Known l)
    (hx : x ∈ children e) : x.Known l := by
  obtain ⟨st, hst, hparts⟩ := hc e (List.ne_nil_of_mem hx)
  rw [hparts] at hx
  exact hs.cells st.kind st.address (he.storage st hst) x hx

theorem known_of_reaches (hs : s.Stored l) (hc : s.heap.Enters children) (he : e.Known l)
    (hx : ReflTransGen (Child children) e x) : x.Known l := by
  induction hx with
  | refl => exact he
  | tail _ hx ih => exact known_child hs hc ih hx

/-- Storage with something in it has one kind. -/
theorem kind_eq {st st' : Storage} (hst : st.Known l) (hst' : st'.Known l)
    (ha : st.address = st'.address) {c : st.kind.Content} {c' : st'.kind.Content}
    (hp : st.kind.parts c ≠ []) (hp' : st'.kind.parts c' ≠ []) : st = st' := by
  have container : ∀ {k : Kind} {c : k.Content}, k.parts c ≠ [] → k ≠ .dictionary → k = .array := by
    intro k c hc hk
    cases k with
    | array => rfl
    | dictionary => exact absurd rfl hk
    | _ => exact absurd rfl hc
  obtain ⟨k, a⟩ := st
  obtain ⟨k', a'⟩ := st'
  obtain rfl : a = a' := ha
  suffices hk : k = k' by rw [hk]
  cases a with
  | zero => exact (container hp hst).trans (container hp' hst').symm
  | succ a => exact Option.some.inj ((show (made l)[a]? = some k from hst).symm.trans hst')

/-- **As many steps as there is storage are enough for all values but those that contain
themselves.** -/
theorem ends_iff_of_stored (hs : s.Stored l) (hc : s.heap.Enters children) (he : e.Known l) :
    Ends children s.heap.depth e ↔ ¬ Looped children e := by
  have hcard : s.heap.depth = (Finset.range s.heap.next).card + 1 := by rw [Finset.card_range]; rfl
  rw [hcard]
  refine ends_iff Entity.addressOf (fun x hx hne => ?_) fun x y hx hy hnx hny hkey => ?_
  · obtain ⟨st, hst, -⟩ := hc x hne
    rw [addressOf_eq hst]
    exact Finset.mem_range.mpr (((known_of_reaches hs hc he hx).storage st hst).address_lt hs)
  · obtain ⟨st, hst, hparts⟩ := hc x hnx
    obtain ⟨st', hst', hparts'⟩ := hc y hny
    rw [addressOf_eq hst, addressOf_eq hst'] at hkey
    rw [hparts] at hnx
    rw [hparts'] at hny
    have hknown := (known_of_reaches hs hc he hx).storage st hst
    have hknown' := (known_of_reaches hs hc he hy).storage st' hst'
    rw [hparts, hparts', kind_eq hknown hknown' hkey hnx hny]

end Ways

section Runs

variable (host : Host) (depth : Nat) (program : Program) (schedule : List Wake) {l : List Action}
  (hl : l <+: (evalProgram host depth program (.fresh schedule)).log)
include hl

/-- **A representation and an export end but where the value contains itself**, at every moment of
every run; and the steps they are given make no other difference. -/
theorem ends_iff_of_run {e : Entity} (he : e.Known l) :
    let h := (l.foldl State.apply (.fresh schedule)).heap
    (representation host h h.depth e = none ↔ Looped h.printed e) ∧
      (toJson h h.depth e = none ↔ Looped h.exported e) ∧
      ∀ n, (representation host h n e = none ∨
        representation host h n e = representation host h h.depth e) ∧
        (toJson h n e = none ∨ toJson h n e = toJson h h.depth e) := by
  intro h
  have hs : (l.foldl State.apply (.fresh schedule)).Stored l := stored_of_run host depth program schedule hl
  have hprinted : representation host h h.depth e ≠ none ↔ ¬ Looped h.printed e :=
    (representation_ne_none host h).trans (ends_iff_of_stored hs h.enters_printed he)
  have hexported : toJson h h.depth e ≠ none ↔ ¬ Looped h.exported e :=
    (toJson_ne_none h).trans (ends_iff_of_stored hs h.enters_exported he)
  refine ⟨not_iff_not.mp hprinted, not_iff_not.mp hexported, fun n => ⟨?_, ?_⟩⟩
  · by_cases hn : representation host h n e = none
    · exact .inl hn
    · have hdepth : representation host h h.depth e ≠ none :=
        hprinted.mpr ((representation_ne_none host h).mp hn).not_looped
      rcases Nat.le_total n h.depth with hle | hle
      · exact .inr (representation_eq_of_le host h hn hle).symm
      · exact .inr (representation_eq_of_le host h hdepth hle)
  · by_cases hn : toJson h n e = none
    · exact .inl hn
    · have hdepth : toJson h h.depth e ≠ none := hexported.mpr ((toJson_ne_none h).mp hn).not_looped
      rcases Nat.le_total n h.depth with hle | hle
      · exact .inr (toJson_eq_of_le h hn hle).symm
      · exact .inr (toJson_eq_of_le h hdepth hle)

end Runs

/-- `d : dictionary; d.insert("k", d);` -/
def insertsItself : Program :=
  [.variableDeclaration "d" "dictionary" none,
    .expression (PrimaryExpression.functionCall ⟨⟨"d", ["insert"]⟩,
      [⟨none, (Literal.string "k").toExpression⟩,
        ⟨none, IdentifierPath.toExpression ⟨"d", []⟩⟩]⟩).toExpression]

theorem insertsItself_endless :
    let h := ((evalProgram .plain 1 insertsItself (.fresh [])).log.foldl State.apply (.fresh [])).heap
    h.next = 4 ∧ representation .plain h h.depth (.dictionary .dictionary 2) = none := by
  refine ⟨rfl, (ends_iff_of_run .plain 1 insertsItself [] (List.prefix_refl _) ?_).1.mpr ?_⟩
  · exact known_of_storage rfl rfl rfl
  · exact ⟨_, .refl, .single (List.mem_singleton.mpr rfl)⟩

/-! ## What is made before it is used -/

/-- Entities are written into storage that has been made before. -/
def Action.ties : Action → Bool
  | .assign _ (.array _) (.array _) | .insert _ _ _ => true
  | _ => false

/-- What is in storage has been made before it. -/
def Heap.Descending (h : Heap) : Prop :=
  ∀ (k : Kind) (a : Nat), ∀ x ∈ k.parts (h.cell k a), ∀ st, x.storage = some st → st.address < a

section Descending

variable {l : List Action} {s : State}

theorem descending_write {h : Heap} (hd : h.Descending) {k : Kind} {a : Nat} {c : k.Content}
    (hc : ∀ x ∈ k.parts c, ∀ st, x.storage = some st → st.address < a) :
    (h.write k a c).Descending := by
  intro k' a' x hx
  by_cases heq : (⟨k', a'⟩ : Storage) = ⟨k, a⟩
  · cases heq
    rw [Heap.write_cell_self] at hx
    exact hc x hx
  · rw [Heap.write_cell_of_ne _ _ heq] at hx
    exact hd k' a' x hx

theorem descending_apply (hs : s.Stored l) {a : Action} (ha : a.Known l) (ht : a.ties = false)
    (hd : s.heap.Descending) : (s.apply a).heap.Descending := by
  cases a with
  | alloc k c =>
    have hc : ∀ x ∈ k.parts c, ∀ st, x.storage = some st → st.address < s.heap.next :=
      fun x hx st hst => ((ha x hx).storage st hst).address_lt hs
    exact fun k' a' => descending_write hd hc k' a'
  | assign x lhs rhs =>
    change (s.heap.afterAssign lhs rhs).Descending
    unfold Heap.afterAssign
    cases hr : s.heap.assign lhs rhs with
    | error what => exact hd
    | ok r =>
      unfold Heap.assign at hr
      split at hr
      · split at hr <;> cases hr
        all_goals exact descending_write hd nofun
      · split at hr
        · exact absurd rfl (Bool.eq_false_iff.mp ht)
        · cases hr
      · split at hr <;> cases hr
        exact hd
  | insert d key value => exact absurd rfl (Bool.eq_false_iff.mp ht)
  | pop =>
    change s.pop.heap.Descending
    rw [s.pop_heap]
    exact hd
  | declare _ _ | push _ | returnValue _ _ _ | breakLoop | wake | print _ | request _ _ | execute _ _
  | timeout => exact hd

theorem descending_of_run (host : Host) (depth : Nat) (program : Program) (schedule : List Wake)
    (hl : l <+: (evalProgram host depth program (.fresh schedule)).log) (ht : ∀ a ∈ l, a.ties = false) :
    (l.foldl State.apply (.fresh schedule)).heap.Descending := by
  induction l using List.reverseRecOn with
  | nil =>
    intro k a x hx
    cases k <;> cases hx
  | append_singleton l a ih =>
    have hbefore := (List.prefix_append l [a]).trans hl
    have hs := stored_of_run host depth program schedule hl
    rw [List.foldl_append]
    exact descending_apply (stored_of_run host depth program schedule hbefore)
      (hs.actions l a (List.prefix_refl _)) (ht a (by simp))
      (ih hbefore fun b hb => ht b (List.mem_append_left _ hb))

theorem not_looped_of_descending (hd : s.heap.Descending) {children : Entity → List Entity}
    (hc : s.heap.Enters children) {e : Entity} : ¬ Looped children e := by
  refine not_looped_of_lt Entity.addressOf fun x y _ hy hne => ?_
  obtain ⟨st, hst, hparts⟩ := hc x (List.ne_nil_of_mem hy)
  obtain ⟨st', hst', -⟩ := hc y hne
  rw [addressOf_eq hst, addressOf_eq hst']
  rw [hparts] at hy
  exact hd st.kind st.address y hy st' hst'

/-- **Only an assignment to an array or an insertion makes a value contain itself.** -/
theorem finite_of_run (host : Host) (depth : Nat) (program : Program) (schedule : List Wake)
    (hl : l <+: (evalProgram host depth program (.fresh schedule)).log) (ht : ∀ a ∈ l, a.ties = false)
    {e : Entity} (he : e.Known l) :
    let h := (l.foldl State.apply (.fresh schedule)).heap
    (∃ text, representation host h h.depth e = some text) ∧ ∃ v, toJson h h.depth e = some v := by
  intro h
  have hs := stored_of_run host depth program schedule hl
  have hd := descending_of_run host depth program schedule hl ht
  constructor
  · refine Option.ne_none_iff_exists'.mp ((representation_ne_none host h).mpr ?_)
    exact (ends_iff_of_stored hs h.enters_printed he).mpr (not_looped_of_descending hd h.enters_printed)
  · refine Option.ne_none_iff_exists'.mp ((toJson_ne_none h).mpr ?_)
    exact (ends_iff_of_stored hs h.enters_exported he).mpr (not_looped_of_descending hd h.enters_exported)

end Descending

/-- `a : array = [1, "k"];` -/
def makesArray : Program :=
  [.variableDeclaration "a" "array" (some (PrimaryExpression.array
    [(Literal.integer 1).toExpression, (Literal.string "k").toExpression]).toExpression)]

theorem makesArray_finite :
    let h := ((evalProgram .plain 1 makesArray (.fresh [])).log.foldl State.apply (.fresh [])).heap
    h.next = 6 ∧ (∃ text, representation .plain h h.depth (.array 5) = some text) ∧
      ∃ v, toJson h h.depth (.array 5) = some v := by
  have hties : (evalProgram .plain 1 makesArray (.fresh [])).log.all (fun a => !a.ties) = true := rfl
  refine ⟨rfl, finite_of_run .plain 1 makesArray [] (List.prefix_refl _) (fun a ha => ?_)
    (known_of_storage rfl rfl rfl)⟩
  exact (Bool.not_eq_true' _).mp (List.all_eq_true.mp hties a ha)

end EzCpp.Flow
