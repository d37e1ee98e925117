import EzCpp.Flow.Sharing
import Mathlib.Data.List.Forall2
import Mathlib.Data.List.Nodup
import Mathlib.Data.List.Perm.Basic

/-!
# JSON and back

What a delegate replies becomes a dictionary, and a dictionary can be exported again. The export of
a reply is computed without the heap (`exported`): `from_json` only makes new storage, so that what
it has made stays as it is (`Exports`). An export has the numbers of the reply, its keys and its order
of elements, but for the nulls, exactly if it has no number that a signed integer cannot hold
(`reply_kept_iff`): a larger one comes out negative.
-/

namespace EzCpp.Flow

open EzCpp.Lib

namespace Json

/-- `x` is the value, or in it. -/
inductive Occurs (x : Json) : Json → Prop
  | self : Occurs x x
  | element {v : Json} {vs : List Json} : v ∈ vs → Occurs x v → Occurs x (.array vs)
  | member {m : String × Json} {ms : List (String × Json)} : m ∈ ms → Occurs x m.2 →
      Occurs x (.object ms)

/-- The keys of an object are distinct, as `boost::json::object` keeps them. -/
def Distinct (j : Json) : Prop :=
  ∀ ms, Occurs (.object ms) j → (ms.map Prod.fst).Nodup

/-- Every number that is unsigned could be signed. -/
def Signed (j : Json) : Prop := ∀ u, Occurs (.uint64 u) j → u.toNat < 2 ^ 63

/-- A whole number. -/
def whole : Json → Option Int
  | .int64 i => some i.toInt
  | .uint64 u => some u.toNat
  | _ => none

mutual

/-- Equality of values. A whole number may be of either kind, and an object in any order. -/
def Same : Json → Json → Prop
  | .null, j => j = .null
  | .bool b, j => j = .bool b
  | .int64 i, j => j.whole = some i.toInt
  | .uint64 u, j => j.whole = some (u.toNat : Int)
  | .double d, j => j = .double d
  | .string s, j => j = .string s
  | .array vs, j => ∃ ws, j = .array ws ∧ SameElements vs ws
  | .object ms, j => ∃ ns, j = .object ns ∧ ms.length = ns.length ∧ SameMembers ms ns

def SameElements : List Json → List Json → Prop
  | [], ws => ws = []
  | v :: vs, ws => ∃ w ws', ws = w :: ws' ∧ v.Same w ∧ SameElements vs ws'

/-- Every member is found, with the same value. -/
def SameMembers : List (String × Json) → List (String × Json) → Prop
  | [], _ => True
  | (key, v) :: ms, ns => (∃ w, (key, w) ∈ ns ∧ v.Same w) ∧ SameMembers ms ns

end

mutual

/-- The value without the null members and elements, unless it is null. -/
def withoutNulls : Json → Option Json
  | .null => none
  | .array vs => some (.array (elementsWithoutNulls vs))
  | .object ms => some (.object (membersWithoutNulls ms))
  | j => some j

def elementsWithoutNulls : List Json → List Json
  | [] => []
  | v :: vs => v.withoutNulls.toList ++ elementsWithoutNulls vs

def membersWithoutNulls : List (String × Json) → List (String × Json)
  | [] => []
  | (key, v) :: ms => (v.withoutNulls.map (key, ·)).toList ++ membersWithoutNulls ms

end

mutual

/-- What the export of a reply is. -/
def exported : Json → Option Json
  | .null => none
  | .uint64 u => some (.int64 u.toInt64)
  | .array vs => some (.array (exportedElements vs))
  | .object ms => some (.object (exportedMembers .empty ms).entries)
  | j => some j

def exportedElements : List Json → List Json
  | [] => []
  | v :: vs => v.exported.toList ++ exportedElements vs

def exportedMembers (members : SortedMap String Json) : List (String × Json) →
    SortedMap String Json
  | [] => members
  | (key, v) :: ms =>
    match v.exported with
    | some w => exportedMembers (members.insert key w) ms
    | none => exportedMembers members ms

end

end Json

/-! ## What `from_json` makes -/

section builds

variable {h h' : Heap} {s : State} {e : Entity} {j : Json} {lo hi lo' hi' : Nat} {α β : Type}

/-- The evaluation returns, makes nothing but new storage, and leaves what is asked. -/
def Builds (m : Eval α) (s : State) (P : α → Heap → Prop) : Prop :=
  ∃ a, (m s).exit = .ok a ∧ Heap.SameBut none s.heap (m.after s).heap ∧ P a (m.after s).heap

theorem Builds.pure {P : α → Heap → Prop} {a : α} (h : P a s.heap) :
    Builds (pure a : Eval α) s P :=
  ⟨a, rfl, .refl _ _, h⟩

theorem Builds.bind {m : Eval α} {f : α → Eval β} {P : α → Heap → Prop} {Q : β → Heap → Prop}
    (hm : Builds m s P)
    (hf : ∀ a t, Heap.SameBut none s.heap t.heap → P a t.heap → Builds (f a) t Q) :
    Builds (m >>= f) s Q := by
  obtain ⟨a, hexit, hsame, hP⟩ := hm
  obtain ⟨b, hexit', hsame', hQ⟩ := hf a (m.after s) hsame hP
  refine ⟨b, ?_, ?_, ?_⟩
  · rw [Coroutine.bind_ok hexit]
    exact hexit'
  · rw [Coroutine.after_bind_ok hexit]
    exact hsame.trans hsame'
  · rw [Coroutine.after_bind_ok hexit]
    exact hQ

theorem Builds.mono {m : Eval α} {P Q : α → Heap → Prop} (hm : Builds m s P)
    (h : ∀ a t, Heap.SameBut none s.heap t → P a t → Q a t) : Builds m s Q := by
  obtain ⟨a, hexit, hsame, hP⟩ := hm
  exact ⟨a, hexit, hsame, h a _ hsame hP⟩

theorem Builds.alloc (k : Kind) (c : k.Content) :
    Builds (Eval.alloc k c) s fun a t => a = s.heap.next ∧ t = s.heap.alloc k c :=
  ⟨s.heap.next, rfl, Heap.sameBut_alloc none s.heap k c, rfl, rfl⟩

/-- Whatever happens to other storage, the entity is exported as `j`, with as many steps as there is
storage of its own. -/
def Exports (lo : Nat) (h : Heap) (e : Entity) (j : Json) : Prop :=
  ∀ h' : Heap, (∀ k a, lo ≤ a → a < h.next → h'.cell k a = h.cell k a) →
    ∀ n, h.next ≤ lo + n → toJson h' n e = some (some j)

/-- An entity goes on being exported so while other storage is made. -/
theorem Exports.mono (he : Exports lo h e j) (hlo : lo' ≤ lo) (hs : Heap.SameBut none h h') :
    Exports lo' h' e j := by
  intro h'' hcell n hn
  refine he h'' (fun k a hl ha => ?_) n ?_
  · rw [hcell k a (hlo.trans hl) (ha.trans_le hs.next)]
    exact hs.cell k a ha nofun
  · have := hs.next
    omega

/-- A value without parts is in one cell. -/
theorem Builds.leaf {k : Kind} {c : k.Content} {f : Nat → Entity}
    (hf : ∀ (h : Heap) n, h.cell k s.heap.next = c → toJson h (n + 1) (f s.heap.next) = some (some j)) :
    Builds (do return some (f (← Eval.alloc k c)) : Eval (Option Entity)) s fun e h =>
      Option.Rel (Exports s.heap.next h) e (some j) := by
  refine (Builds.alloc k c).bind fun a t _ ha => .pure ?_
  obtain ⟨rfl, ht⟩ := ha
  refine .some fun h' hcell n hn => ?_
  rw [ht, Heap.alloc_next] at hn hcell
  obtain ⟨n, rfl⟩ : ∃ m, n = m + 1 := ⟨n - 1, by omega⟩
  refine hf h' n ?_
  rw [hcell k _ (Nat.le_refl _) (Nat.lt_succ_self _), Heap.alloc_cell_self]

/-- The entries of a dictionary are exported as the members. -/
def ExportsEntries (lo : Nat) (h : Heap) (entries : List (String × Entity))
    (members : List (String × Json)) : Prop :=
  List.Forall₂ (fun e m => e.1 = m.1 ∧ Exports lo h e.2 m.2) entries members

theorem toJson_array {a n : Nat} {vs : List Json}
    (hv : List.Forall₂ (fun e v => toJson h n e = some (some v)) (h.cell .array a) vs) :
    toJson h (n + 1) (.array a) = some (some (.array vs)) := by
  have elements : (h.cell .array a).mapM (toJson h n) = some (vs.map some) := by
    generalize h.cell .array a = es at hv
    induction hv with
    | nil => rfl
    | cons hv _ ih => rw [List.mapM_cons, hv, ih]; rfl
  rw [toJson, elements]
  simp

theorem toJson_dictionary {a n : Nat} {ms : List (String × Json)}
    (hm : List.Forall₂ (fun e m => e.1 = m.1 ∧ toJson h n e.2 = some (some m.2))
      (h.cell .dictionary a).entries ms) :
    toJson h (n + 1) (.dictionary .dictionary a) = some (some (.object ms)) := by
  have members : (h.cell .dictionary a).entries.mapM (fun entry => do
      pure ((← toJson h n entry.2).map fun v => (entry.1, v))) = some (ms.map some) := by
    generalize (h.cell .dictionary a).entries = es at hm
    induction hm with
    | nil => rfl
    | cons hm _ ih => rw [List.mapM_cons, hm.2, ih, hm.1]; rfl
  rw [toJson, members]
  simp

theorem forall₂_insertEntries {R : Entity → α → Prop} {k : String} {e : Entity} {j : α}
    {entries : List (String × Entity)} {members : List (String × α)}
    (h : List.Forall₂ (fun e m => e.1 = m.1 ∧ R e.2 m.2) entries members) (he : R e j) :
    List.Forall₂ (fun e m => e.1 = m.1 ∧ R e.2 m.2) (SortedMap.insertEntries k e entries)
      (SortedMap.insertEntries k j members) := by
  induction h with
  | nil => exact .cons ⟨rfl, he⟩ .nil
  | @cons x y xs ys hxy hrest ih =>
    rw [SortedMap.insertEntries, SortedMap.insertEntries, hxy.1]
    split
    · exact .cons ⟨rfl, he⟩ (.cons hxy hrest)
    · split
      · exact .cons hxy ih
      · exact .cons hxy hrest

mutual

theorem fromJson_builds : ∀ (j : Json) (s : State),
    Builds (fromJson j) s fun e h => Option.Rel (Exports s.heap.next h) e j.exported
  | .null, s => by
    rw [fromJson]
    exact .pure .none
  | .bool b, s => by
    rw [fromJson]
    exact .leaf (k := .boolean) fun h n hc => by rw [toJson, hc]
  | .int64 i, s => by
    rw [fromJson]
    exact .leaf (k := .integer) fun h n hc => by rw [toJson, hc]
  | .uint64 u, s => by
    rw [fromJson]
    exact .leaf (k := .integer) fun h n hc => by rw [toJson, hc]
  | .double d, s => by
    rw [fromJson]
    exact .leaf (k := .real) fun h n hc => by rw [toJson, hc]
  | .string t, s => by
    rw [fromJson]
    exact .leaf (k := .string) fun h n hc => by rw [toJson, hc]
  | .array vs, s => by
    rw [fromJson, Json.exported]
    refine (fromJsonArray_builds vs s).bind fun es t hst hes => ?_
    refine (Builds.alloc .array es).bind fun a u _ ha => .pure (.some fun h hcell n hn => ?_)
    obtain ⟨rfl, hu⟩ := ha
    rw [hu, Heap.alloc_next] at hn hcell
    obtain ⟨n, rfl⟩ : ∃ m, n = m + 1 := ⟨n - 1, by have := hst.next; omega⟩
    refine toJson_array ?_
    rw [hcell .array _ hst.next (Nat.lt_succ_self _), Heap.alloc_cell_self]
    refine hes.imp fun e v he => he h (fun k a hl ha => ?_) n (by omega)
    rw [hcell k a hl (ha.trans (Nat.lt_succ_self _)), Heap.alloc_cell_of_lt _ _ ha]
  | .object ms, s => by
    rw [fromJson, Json.exported]
    refine (fromJsonObject_builds ms s.heap.next .empty .empty s (Nat.le_refl _) .nil).bind
      fun es t hst hes => ?_
    refine (Builds.alloc .dictionary es).bind fun a u _ ha => .pure (.some fun h hcell n hn => ?_)
    obtain ⟨rfl, hu⟩ := ha
    rw [hu, Heap.alloc_next] at hn hcell
    obtain ⟨n, rfl⟩ : ∃ m, n = m + 1 := ⟨n - 1, by have := hst.next; omega⟩
    refine toJson_dictionary ?_
    rw [hcell .dictionary _ hst.next (Nat.lt_succ_self _), Heap.alloc_cell_self]
    refine hes.imp fun e m he => ⟨he.1, he.2 h (fun k a hl ha => ?_) n (by omega)⟩
    rw [hcell k a hl (ha.trans (Nat.lt_succ_self _)), Heap.alloc_cell_of_lt _ _ ha]

theorem fromJsonArray_builds : ∀ (vs : List Json) (s : State),
    Builds (fromJsonArray vs) s fun es h =>
      List.Forall₂ (Exports s.heap.next h) es (Json.exportedElements vs)
  | [], s => by
    rw [fromJsonArray]
    exact .pure .nil
  | v :: vs, s => by
    rw [fromJsonArray, Json.exportedElements]
    refine (fromJson_builds v s).bind fun e t hst he => ?_
    refine (fromJsonArray_builds vs t).bind fun es u htu hes => .pure ?_
    have rest := hes.imp fun _ _ he => he.mono hst.next (.refl _ _)
    generalize v.exported = w at he ⊢
    cases he with
    | none => exact rest
    | some he => exact .cons (he.mono (Nat.le_refl _) htu) rest

theorem fromJsonObject_builds : ∀ (ms : List (String × Json)) (lo : Nat)
    (entries : SortedMap String Entity) (members : SortedMap String Json) (s : State),
    lo ≤ s.heap.next → ExportsEntries lo s.heap entries.entries members.entries →
      Builds (fromJsonObject entries ms) s fun es h =>
        ExportsEntries lo h es.entries (Json.exportedMembers members ms).entries
  | [], lo, entries, members, s, hlo, h => by
    rw [fromJsonObject, Json.exportedMembers]
    exact .pure h
  | (key, v) :: ms, lo, entries, members, s, hlo, h => by
    rw [fromJsonObject, Json.exportedMembers]
    refine (fromJson_builds v s).bind fun e t hst he => ?_
    have before : ExportsEntries lo t.heap entries.entries members.entries :=
      h.imp fun _ _ he => ⟨he.1, he.2.mono (Nat.le_refl _) hst⟩
    have hlo' := hlo.trans hst.next
    generalize v.exported = w at he ⊢
    cases he with
    | none => exact fromJsonObject_builds ms lo entries members t hlo' before
    | some he =>
      refine fromJsonObject_builds ms lo (entries.insert key _) (members.insert key _) t hlo' ?_
      exact forall₂_insertEntries before (he.mono hlo (.refl _ _))

end

end builds

/-! ## What is kept -/

namespace Json

variable {v w : Json} {vs ws : List Json} {ms ns : List (String × Json)}

theorem Distinct.element (h : Distinct (.array vs)) : ∀ v ∈ vs, v.Distinct :=
  fun _ hv ms ho => h ms (.element hv ho)

theorem Distinct.member (h : Distinct (.object ms)) : ∀ m ∈ ms, m.2.Distinct :=
  fun _ hm ns ho => h ns (.member hm ho)

theorem signed_array : Signed (.array vs) ↔ ∀ v ∈ vs, v.Signed := by
  constructor
  · exact fun h v hv u ho => h u (.element hv ho)
  · intro h u ho
    cases ho with
    | element hv ho => exact h _ hv u ho

theorem signed_object : Signed (.object ms) ↔ ∀ m ∈ ms, m.2.Signed := by
  constructor
  · exact fun h m hm u ho => h u (.member hm ho)
  · intro h u ho
    cases ho with
    | member hm ho => exact h _ hm u ho

theorem sameMembers_iff : SameMembers ms ns ↔
    ∀ m ∈ ms, ∃ w, (m.1, w) ∈ ns ∧ m.2.Same w := by
  induction ms with
  | nil => simp [SameMembers]
  | cons m ms ih => rw [SameMembers, ih, List.forall_mem_cons]

theorem exported_eq_none_iff : v.exported = none ↔ v = .null := by
  cases v <;> simp [exported]

theorem withoutNulls_eq_none_iff : v.withoutNulls = none ↔ v = .null := by
  cases v <;> simp [withoutNulls]

theorem signed_null : Signed .null := nofun

/-- A value that is not null is kept in both. -/
theorem exists_of_ne_null (h : v ≠ .null) :
    (∃ d, v.exported = some d) ∧ ∃ w, v.withoutNulls = some w :=
  ⟨Option.ne_none_iff_exists'.1 (mt exported_eq_none_iff.1 h),
    Option.ne_none_iff_exists'.1 (mt withoutNulls_eq_none_iff.1 h)⟩

theorem membersWithoutNulls_eq (ms : List (String × Json)) :
    membersWithoutNulls ms = ms.filterMap fun m => m.2.withoutNulls.map (m.1, ·) := by
  induction ms with
  | nil => rfl
  | cons m ms ih =>
    rw [membersWithoutNulls, ih, List.filterMap_cons]
    cases m.2.withoutNulls <;> rfl

/-- Distinct keys are never in each other's way. -/
theorem exportedMembers_perm {W : SortedMap String Json} (h : (ms.map Prod.fst).Nodup)
    (hd : ∀ m ∈ ms, m.1 ∉ W.entries.map Prod.fst) : (exportedMembers W ms).entries.Perm
      (W.entries ++ ms.filterMap fun m => m.2.exported.map (m.1, ·)) := by
  induction ms generalizing W with
  | nil =>
    rw [exportedMembers, List.filterMap_nil, List.append_nil]
  | cons m ms ih =>
    obtain ⟨key, v⟩ := m
    rw [List.map_cons, List.nodup_cons] at h
    obtain ⟨hm, hd⟩ := List.forall_mem_cons.1 hd
    rw [exportedMembers, List.filterMap_cons]
    cases v.exported with
    | none => exact ih h.2 hd
    | some w =>
      have perm := SortedMap.insertEntries_perm hm w
      have keys : ∀ m ∈ ms, m.1 ∉ (W.insert key w).entries.map Prod.fst := by
        intro m hms hin
        rcases List.mem_cons.1 ((perm.map Prod.fst).mem_iff.1 hin) with he | hin
        · exact h.1 (he ▸ List.mem_map_of_mem hms)
        · exact hd m hms hin
      exact (ih h.2 keys).trans ((perm.append_right _).trans List.perm_middle.symm)

/-- The export of a value, and the value without nulls. -/
def Kept (j : Json) : Prop :=
  ∀ d w, j.exported = some d → j.withoutNulls = some w → (d.Same w ↔ j.Signed)

theorem Kept.of_plain {j : Json} (h : j.exported = some w) (h' : j.withoutNulls = some w)
    (same : w.Same w) (signed : ∀ u, ¬ Occurs (.uint64 u) j) : j.Kept := by
  intro d w' hd hw
  cases h.symm.trans hd
  cases h'.symm.trans hw
  exact iff_of_true same fun u ho => absurd ho (signed u)

theorem kept_uint64 (u : UInt64) : Kept (.uint64 u) := by
  rintro _ _ ⟨⟩ ⟨⟩
  have signed : Signed (.uint64 u) ↔ u.toNat < 2 ^ 63 := by
    constructor
    · exact fun h => h u .self
    · intro h u' ho
      cases ho
      exact h
  have value : u.toInt64.toInt = if 2 * u.toNat < 2 ^ 64 then (u.toNat : Int) else u.toNat - 2 ^ 64 :=
    BitVec.toInt_eq_toNat_cond u.toBitVec
  rw [Same, signed, whole, Option.some.injEq, value]
  split
  · exact iff_of_true rfl (by omega)
  · exact iff_of_false (by omega) (by omega)

theorem length_exported (ms : List (String × Json)) :
    (ms.filterMap fun m => m.2.exported.map (m.1, ·)).length =
      (ms.filterMap fun m => m.2.withoutNulls.map (m.1, ·)).length := by
  induction ms with
  | nil => rfl
  | cons m ms ih =>
    rw [List.filterMap_cons, List.filterMap_cons]
    by_cases hm : m.2 = .null
    · rw [exported_eq_none_iff.2 hm, withoutNulls_eq_none_iff.2 hm]
      exact ih
    · obtain ⟨⟨d, hd⟩, w, hw⟩ := exists_of_ne_null hm
      rw [hd, hw]
      exact congrArg (· + 1) ih

theorem kept_object (h : Distinct (.object ms)) (hk : ∀ m ∈ ms, m.2.Kept) : Kept (.object ms) := by
  rintro _ _ ⟨⟩ ⟨⟩
  have nodup := h ms .self
  have perm := exportedMembers_perm (W := .empty) nodup fun _ _ => List.not_mem_nil
  have found : ∀ {f : Json → Option Json} {key : String} {w : Json},
      (key, w) ∈ ms.filterMap (fun m => (f m.2).map (m.1, ·)) ↔
        ∃ v, (key, v) ∈ ms ∧ f v = some w := by
    intro f key w
    simp [List.mem_filterMap]
  have length := perm.length_eq.trans (length_exported ms)
  rw [Same, signed_object, membersWithoutNulls_eq]
  constructor
  · rintro ⟨ns, ⟨⟩, -, same⟩ ⟨key, v⟩ hm
    by_cases hv : v = .null
    · rw [hv]
      exact signed_null
    · obtain ⟨⟨d, hd⟩, -⟩ := exists_of_ne_null hv
      obtain ⟨w, hw, hdw⟩ := sameMembers_iff.1 same (key, d) (perm.mem_iff.2 (found.2 ⟨v, hm, hd⟩))
      obtain ⟨v', hm', hv'⟩ := found.1 hw
      cases List.inj_on_of_nodup_map nodup hm hm' rfl
      exact (hk (key, v) hm d w hd hv').1 hdw
  · intro signed
    refine ⟨_, rfl, length, sameMembers_iff.2 fun ⟨key, d⟩ hm => ?_⟩
    obtain ⟨v, hm, hd⟩ := found.1 (perm.mem_iff.1 hm)
    have hv : v ≠ .null := fun hv => by rw [exported_eq_none_iff.2 hv] at hd; cases hd
    obtain ⟨-, w, hw⟩ := exists_of_ne_null hv
    exact ⟨w, found.2 ⟨v, hm, hw⟩, (hk (key, v) hm d w hd hw).2 (signed (key, v) hm)⟩

mutual

theorem kept : ∀ j : Json, j.Distinct → j.Kept
  | .null, _ => nofun
  | .bool b, _ => .of_plain rfl rfl (by rw [Same]) fun _ => nofun
  | .int64 i, _ => .of_plain rfl rfl (by rw [Same]; rfl) fun _ => nofun
  | .uint64 u, _ => kept_uint64 u
  | .double d, _ => .of_plain rfl rfl (by rw [Same]) fun _ => nofun
  | .string s, _ => .of_plain rfl rfl (by rw [Same]) fun _ => nofun
  | .array vs, h => by
    rintro _ _ ⟨⟩ ⟨⟩
    rw [Same, signed_array, ← keptElements vs h.element]
    simp
  | .object ms, h => kept_object h (keptMembers ms h.member)

theorem keptElements : ∀ vs : List Json, (∀ v ∈ vs, v.Distinct) →
    (SameElements (exportedElements vs) (elementsWithoutNulls vs) ↔ ∀ v ∈ vs, v.Signed)
  | [], _ => by simp [exportedElements, elementsWithoutNulls, SameElements]
  | v :: vs, h => by
    obtain ⟨hv, hvs⟩ := List.forall_mem_cons.1 h
    have first := kept v hv
    have rest := keptElements vs hvs
    rw [exportedElements, elementsWithoutNulls, List.forall_mem_cons]
    by_cases hn : v = .null
    · rw [exported_eq_none_iff.2 hn, withoutNulls_eq_none_iff.2 hn, and_iff_right]
      · exact rest
      · rw [hn]
        exact signed_null
    · obtain ⟨⟨d, hd⟩, w, hw⟩ := exists_of_ne_null hn
      rw [hd, hw, ← first d w hd hw, ← rest]
      simp [SameElements]

theorem keptMembers : ∀ ms : List (String × Json), (∀ m ∈ ms, m.2.Distinct) → ∀ m ∈ ms, m.2.Kept
  | [], _, _, hm => nomatch hm
  | (key, v) :: ms, h, m, hm => by
    obtain ⟨hv, hms⟩ := List.forall_mem_cons.1 h
    rcases List.mem_cons.1 hm with rfl | hm
    · exact kept v hv
    · exact keptMembers ms hms m hm

end

end Json

/-- `boost::json::object`: whatever is in it, no object has a key twice. -/
structure JsonObject where
  members : List (String × Json)
  distinct : Json.Distinct (.object members)

theorem fromJson_object {ms : List (String × Json)} {s : State} {e : Option Entity}
    (h : (fromJson (.object ms) s).exit = .ok e) : ∃ a, e = some (.dictionary .dictionary a) := by
  rw [fromJson] at h
  obtain ⟨entries, -, h⟩ := Coroutine.of_bind_ok h
  obtain ⟨a, -, h⟩ := Coroutine.of_bind_ok h
  cases h
  exact ⟨a, rfl⟩

theorem fromJson_exported (ms : List (String × Json)) (s : State) :
    ∃ a, (fromJson (.object ms) s).exit = .ok (some (.dictionary .dictionary a)) ∧
      toJson ((fromJson (.object ms)).after s).heap ((fromJson (.object ms)).after s).heap.depth
        (.dictionary .dictionary a) = some (some (.object (Json.exportedMembers .empty ms).entries)) := by
  obtain ⟨e, hexit, hsame, hbuilt⟩ := fromJson_builds (.object ms) s
  obtain ⟨a, rfl⟩ := fromJson_object hexit
  rw [Json.exported] at hbuilt
  obtain ⟨hexports⟩ := hbuilt
  refine ⟨a, hexit, hexports _ (fun _ _ _ _ => rfl) _ ?_⟩
  rw [Heap.depth]
  omega

/-- **A reply that is made a dictionary and exported again is what it was without its nulls if, and
only if, none of its numbers is too large to be signed.** -/
theorem reply_kept_iff (j : JsonObject) (s : State) : ∃ a, (fromJson (.object j.members) s).exit =
      .ok (some (.dictionary .dictionary a)) ∧
    ∃ d, toJson ((fromJson (.object j.members)).after s).heap
        ((fromJson (.object j.members)).after s).heap.depth (.dictionary .dictionary a) = some (some d) ∧
      (d.Same (.object (Json.membersWithoutNulls j.members)) ↔ Json.Signed (.object j.members)) := by
  obtain ⟨a, hexit, hexported⟩ := fromJson_exported j.members s
  exact ⟨a, hexit, _, hexported, Json.kept _ j.distinct _ _ rfl rfl⟩

/-- 2 to the power of 63 comes out as the least signed number. -/
theorem unsigned_lost : ¬ ∀ (j : JsonObject) (s : State) (a : Nat) (d : Json),
    (fromJson (.object j.members) s).exit = .ok (some (.dictionary .dictionary a)) →
      toJson ((fromJson (.object j.members)).after s).heap
        ((fromJson (.object j.members)).after s).heap.depth (.dictionary .dictionary a) = some (some d) →
          d.Same (.object (Json.membersWithoutNulls j.members)) := by
  intro h
  have distinct : Json.Distinct (.object [("size", .uint64 9223372036854775808)]) := by
    intro ms ho
    cases ho with
    | self => decide
    | member hm ho =>
      cases List.mem_singleton.1 hm
      cases ho
  obtain ⟨a, hexit, hexported⟩ :=
    fromJson_exported [("size", .uint64 9223372036854775808)] (.fresh [])
  have same := h ⟨_, distinct⟩ (.fresh []) a _ hexit hexported
  have signed := (Json.kept _ distinct _ _ rfl rfl).1 same
  exact absurd (signed 9223372036854775808 (.member List.mem_cons_self .self)) (by decide)

end EzCpp.Flow
