import EzCpp.Flow.Conversion

/-!
# Requests and back

A request is exported as JSON, which has nothing but booleans, numbers, texts, arrays and objects.
What there is no JSON for is left out, at every depth, and the rest comes back as it was: the
export read back is the value without the parts that are of another kind (`Value.prune`).
-/

namespace EzCpp.Flow

open EzCpp.Lib

namespace Value

mutual

/-- The value without the elements and entries of other kinds, unless it is of another kind. -/
def prune : Value → Option Value
  | .node label ts =>
    match label with
    | .boolean _ | .integer _ | .real _ | .string _ => some (.node label ts)
    | .array => some (.node .array (pruneElements ts))
    | .dictionary .dictionary keys =>
      let entries := pruneEntries keys ts
      some (.node (.dictionary .dictionary (entries.map Prod.fst)) (entries.map Prod.snd))
    | _ => none

def pruneElements : List Value → List Value
  | [] => []
  | t :: ts => (prune t).toList ++ pruneElements ts

def pruneEntries : List String → List Value → List (String × Value)
  | key :: keys, t :: ts => ((prune t).map (key, ·)).toList ++ pruneEntries keys ts
  | _, _ => []

end

/-- A value of these kinds alone. -/
inductive Plain : Value → Prop
  | boolean (b : Bool) : Plain (.node (.boolean b) [])
  | integer (i : Int64) : Plain (.node (.integer i) [])
  | real (r : Float) : Plain (.node (.real r) [])
  | string (s : String) : Plain (.node (.string s) [])
  | array {ts : List Value} (h : ∀ t ∈ ts, Plain t) : Plain (.node .array ts)
  | dictionary {keys : List String} {ts : List Value} (hk : keys.length = ts.length)
      (h : ∀ t ∈ ts, Plain t) : Plain (.node (.dictionary .dictionary keys) ts)

theorem pruneElements_of_prune {ts : List Value} (h : ∀ t ∈ ts, prune t = some t) :
    pruneElements ts = ts := by
  induction ts with
  | nil => rfl
  | cons t ts ih =>
    obtain ⟨ht, hts⟩ := List.forall_mem_cons.1 h
    rw [pruneElements, ht, ih hts]
    rfl

theorem pruneEntries_of_prune {keys : List String} {ts : List Value}
    (hk : keys.length = ts.length) (h : ∀ t ∈ ts, prune t = some t) :
    pruneEntries keys ts = keys.zip ts := by
  induction ts generalizing keys with
  | nil => cases keys <;> rfl
  | cons t ts ih =>
    cases keys with
    | nil => cases hk
    | cons key keys =>
      obtain ⟨ht, hts⟩ := List.forall_mem_cons.1 h
      rw [pruneEntries, ht, ih (Nat.succ.inj hk) hts]
      rfl

/-- Nothing is left out of a value of these kinds alone. -/
theorem Plain.prune_eq {x : Value} (h : Plain x) : prune x = some x := by
  induction h with
  | boolean | integer | real | string => simp [prune]
  | array _ ih => simp [prune, pruneElements_of_prune ih]
  | dictionary hk _ ih =>
    simp only [prune, pruneEntries_of_prune hk ih]
    rw [List.map_fst_zip (Nat.le_of_eq hk), List.map_snd_zip (Nat.le_of_eq hk.symm)]

end Value

/-! ## The export of a value -/

namespace Value

mutual

/-- The JSON of a value. -/
def json : Value → Option Json
  | .node label ts =>
    match label with
    | .boolean b => some (.bool b)
    | .integer i => some (.int64 i)
    | .real r => some (.double r)
    | .string s => some (.string s)
    | .array => some (.array (jsonElements ts))
    | .dictionary .dictionary keys => some (.object (jsonMembers keys ts))
    | _ => none

def jsonElements : List Value → List Json
  | [] => []
  | t :: ts => (json t).toList ++ jsonElements ts

def jsonMembers : List String → List Value → List (String × Json)
  | key :: keys, t :: ts => ((json t).map (key, ·)).toList ++ jsonMembers keys ts
  | _, _ => []

end

end Value

section exports

variable {h : Heap} {e : Entity} {x : Value}

theorem jsonElements_eq (ts : List Value) :
    Value.jsonElements ts = (ts.map Value.json).filterMap fun v => v := by
  induction ts with
  | nil => rfl
  | cons t ts ih =>
    rw [Value.jsonElements, ih, List.map_cons, List.filterMap_cons]
    cases Value.json t <;> rfl

/-- The members are exported as the entries are, each with its key. -/
theorem mapM_entries {n : Nat} {entries : List (String × Entity)} {ts : List Value}
    (h' : (entries.map Prod.snd).mapM (toJson h n) = some (ts.map Value.json)) :
    ∃ ms, entries.mapM (fun entry => do
        pure ((← toJson h n entry.2).map fun v => (entry.1, v))) = some ms ∧
      ms.filterMap (fun m => m) = Value.jsonMembers (entries.map Prod.fst) ts := by
  induction entries generalizing ts with
  | nil =>
    cases ts with
    | nil => exact ⟨[], rfl, rfl⟩
    | cons t ts => cases h'
  | cons entry entries ih =>
    rw [List.map_cons, List.mapM_cons] at h'
    obtain ⟨v, hv, h'⟩ := Option.bind_eq_some_iff.1 h'
    obtain ⟨vs, hvs, h'⟩ := Option.bind_eq_some_iff.1 h'
    cases ts with
    | nil => cases h'
    | cons t ts =>
      have parts := List.cons.inj (Option.some.inj h')
      obtain ⟨ms, hms, hm⟩ := ih (hvs.trans (congrArg some parts.2))
      refine ⟨v.map (entry.1, ·) :: ms, ?_, ?_⟩
      · rw [List.mapM_cons, hv, hms]
        rfl
      · rw [List.filterMap_cons, hm, List.map_cons, Value.jsonMembers, ← parts.1]
        cases v <;> rfl

mutual

/-- **The export of an entity is that of its value**, with enough steps. -/
theorem toJson_unfolds : ∀ {e : Entity} {x : Value}, h.graph.Unfolds e x → ∀ n, x.size ≤ n →
    toJson h n e = some x.json
  | e, _, .node hs, n, hn => by
    rw [LabelledTree.size] at hn
    obtain ⟨n, rfl⟩ : ∃ m, n = m + 1 := ⟨n - 1, by omega⟩
    have parts := toJson_unfoldsAll hs n (by omega)
    show _ = some (Value.json (.node (h.label e) _))
    cases e with
    | array a =>
      have elements : (h.cell .array a).mapM (toJson h n) = _ := parts
      rw [toJson, elements, Heap.label, Value.json, jsonElements_eq]
      rfl
    | dictionary kind a =>
      obtain ⟨ms, hms, hm⟩ := mapM_entries parts
      cases kind with
      | dictionary =>
        rw [toJson, hms, Heap.label, Value.json, ← hm]
        rfl
      | _ => rfl
    | _ => rfl

theorem toJson_unfoldsAll : ∀ {es : List Entity} {ts : List Value}, h.graph.UnfoldsAll es ts →
    ∀ n, LabelledTree.sizes ts ≤ n → es.mapM (toJson h n) = some (ts.map Value.json)
  | _, _, .nil, _, _ => rfl
  | _, _, .cons he hs, n, hn => by
    rw [LabelledTree.sizes] at hn
    rw [List.mapM_cons, toJson_unfolds he n (by omega), toJson_unfoldsAll hs n (by omega)]
    rfl

end

end exports

/-! ## The value of what is read -/

namespace Json

mutual

/-- The value that is made of JSON. -/
def value : Json → Option Value
  | .null => none
  | .bool b => some (.node (.boolean b) [])
  | .int64 i => some (.node (.integer i) [])
  | .uint64 u => some (.node (.integer u.toInt64) [])
  | .double d => some (.node (.real d) [])
  | .string s => some (.node (.string s) [])
  | .array vs => some (.node .array (elementValues vs))
  | .object ms =>
    let entries := (memberValues .empty ms).entries
    some (.node (.dictionary .dictionary (entries.map Prod.fst)) (entries.map Prod.snd))

def elementValues : List Json → List Value
  | [] => []
  | v :: vs => v.value.toList ++ elementValues vs

def memberValues (entries : SortedMap String Value) : List (String × Json) →
    SortedMap String Value
  | [] => entries
  | (key, v) :: ms =>
    match v.value with
    | some x => memberValues (entries.insert key x) ms
    | none => memberValues entries ms

end

end Json

section reading

variable {h h' : Heap} {s : State} {e : Entity} {x : Value} {lo lo' : Nat}

/-- Whatever happens to other storage, this is the value of the entity. -/
def Made (lo : Nat) (h : Heap) (e : Entity) (x : Value) : Prop :=
  ∀ h' : Heap, (∀ k a, lo ≤ a → a < h.next → h'.cell k a = h.cell k a) → h'.HasValue e x

theorem Made.mono (hm : Made lo h e x) (hlo : lo' ≤ lo) (hs : Heap.SameBut none h h') :
    Made lo' h' e x := by
  intro h'' hcell
  refine hm h'' fun k a hl ha => ?_
  rw [hcell k a (hlo.trans hl) (ha.trans_le hs.next)]
  exact hs.cell k a ha nofun

/-- Parts that were made before new storage for the whole. -/
theorem Made.alloc {k : Kind} {c : k.Content} (hm : Made lo h e x)
    (hcell : ∀ k' a, lo ≤ a → a < h.next + 1 → h'.cell k' a = (h.alloc k c).cell k' a) :
    h'.HasValue e x := by
  refine hm h' fun k' a hl ha => ?_
  rw [hcell k' a hl (ha.trans (Nat.lt_succ_self _)), Heap.alloc_cell_of_lt _ _ ha]

theorem unfoldsAll_of_forall₂ {es : List Entity} {ts : List Value}
    (hv : List.Forall₂ h.HasValue es ts) : h.graph.UnfoldsAll es ts := by
  induction hv with
  | nil => exact .nil
  | cons he _ ih => exact .cons he ih

/-- A value without parts is in one cell. -/
theorem Made.cell {k : Kind} {c : k.Content}
    (hf : ∀ h' : Heap, h'.cell k h.next = c → h'.HasValue e x) : Made h.next (h.alloc k c) e x := by
  refine fun h' hcell => hf h' ?_
  rw [Heap.alloc_next] at hcell
  rw [hcell k _ (Nat.le_refl _) (Nat.lt_succ_self _), Heap.alloc_cell_self]

/-- An array of parts that were made before it. -/
theorem Made.array {es : List Entity} {ts : List Value} (hlo : lo ≤ h.next)
    (hes : List.Forall₂ (Made lo h) es ts) :
    Made lo (h.alloc .array es) (.array h.next) (.node .array ts) := by
  intro h' hcell
  rw [Heap.alloc_next] at hcell
  refine .node (unfoldsAll_of_forall₂ ?_)
  show List.Forall₂ _ (h'.cell .array _) _
  rw [hcell .array _ hlo (Nat.lt_succ_self _), Heap.alloc_cell_self]
  exact hes.imp fun _ _ he => he.alloc hcell

theorem Builds.scalar {k : Kind} {c : k.Content} {f : Nat → Entity}
    (hf : ∀ h : Heap, h.cell k s.heap.next = c → h.HasValue (f s.heap.next) x) :
    Builds (do return some (f (← Eval.alloc k c)) : Eval (Option Entity)) s fun e h =>
      Option.Rel (Made s.heap.next h) e (some x) := by
  refine (Builds.alloc k c).bind fun a t _ ha => .pure ?_
  obtain ⟨rfl, ht⟩ := ha
  rw [ht]
  exact .some (.cell hf)

/-- The entries have the values, each under its key. -/
def MadeEntries (lo : Nat) (h : Heap) (entries : List (String × Entity))
    (values : List (String × Value)) : Prop :=
  List.Forall₂ (fun e m => e.1 = m.1 ∧ Made lo h e.2 m.2) entries values

/-- A dictionary of entries that were made before it. -/
theorem Made.dictionary {es : SortedMap String Entity} {ms : List (String × Value)}
    (hlo : lo ≤ h.next) (hes : MadeEntries lo h es.entries ms) :
    Made lo (h.alloc .dictionary es) (.dictionary .dictionary h.next)
      (.node (.dictionary .dictionary (ms.map Prod.fst)) (ms.map Prod.snd)) := by
  intro h' hcell
  rw [Heap.alloc_next] at hcell
  have cell : h'.cell .dictionary h.next = es := by
    rw [hcell .dictionary _ hlo (Nat.lt_succ_self _), Heap.alloc_cell_self]
  have keys : es.entries.map Prod.fst = ms.map Prod.fst := by
    refine List.forall₂_eq_eq_eq ▸ ?_
    exact List.forall₂_map_left_iff.2 (List.forall₂_map_right_iff.2 (hes.imp fun _ _ he => he.1))
  have values : List.Forall₂ h'.HasValue (es.entries.map Prod.snd) (ms.map Prod.snd) :=
    List.forall₂_map_left_iff.2 (List.forall₂_map_right_iff.2
      (hes.imp fun _ _ he => he.2.alloc hcell))
  rw [← keys, ← cell]
  exact .node (unfoldsAll_of_forall₂ (by rw [← cell] at values; exact values))

mutual

theorem fromJson_made : ∀ (j : Json) (s : State),
    Builds (fromJson j) s fun e h => Option.Rel (Made s.heap.next h) e j.value
  | .null, s => by
    rw [fromJson]
    exact .pure .none
  | .bool b, s => by
    rw [fromJson]
    exact .scalar (k := .boolean) fun h hc => hc ▸ .node .nil
  | .int64 i, s => by
    rw [fromJson]
    exact .scalar (k := .integer) fun h hc => hc ▸ .node .nil
  | .uint64 u, s => by
    rw [fromJson]
    exact .scalar (k := .integer) fun h hc => hc ▸ .node .nil
  | .double d, s => by
    rw [fromJson]
    exact .scalar (k := .real) fun h hc => hc ▸ .node .nil
  | .string t, s => by
    rw [fromJson]
    exact .scalar (k := .string) fun h hc => hc ▸ .node .nil
  | .array vs, s => by
    rw [fromJson, Json.value]
    refine (fromJsonArray_made vs s).bind fun es t hst hes => ?_
    refine (Builds.alloc .array es).bind fun a u _ ha => .pure ?_
    obtain ⟨rfl, hu⟩ := ha
    rw [hu]
    exact .some (.array hst.next hes)
  | .object ms, s => by
    rw [fromJson, Json.value]
    refine (fromJsonObject_made ms s.heap.next .empty .empty s (Nat.le_refl _) .nil).bind
      fun es t hst hes => ?_
    refine (Builds.alloc .dictionary es).bind fun a u _ ha => .pure ?_
    obtain ⟨rfl, hu⟩ := ha
    rw [hu]
    exact .some (.dictionary hst.next hes)

theorem fromJsonArray_made : ∀ (vs : List Json) (s : State),
    Builds (fromJsonArray vs) s fun es h =>
      List.Forall₂ (Made s.heap.next h) es (Json.elementValues vs)
  | [], s => by
    rw [fromJsonArray]
    exact .pure .nil
  | v :: vs, s => by
    rw [fromJsonArray, Json.elementValues]
    refine (fromJson_made v s).bind fun e t hst he => ?_
    refine (fromJsonArray_made vs t).bind fun es u htu hes => .pure ?_
    have rest := hes.imp fun _ _ he => he.mono hst.next (.refl _ _)
    generalize v.value = w at he ⊢
    cases he with
    | none => exact rest
    | some he => exact .cons (he.mono (Nat.le_refl _) htu) rest

theorem fromJsonObject_made : ∀ (ms : List (String × Json)) (lo : Nat)
    (entries : SortedMap String Entity) (values : SortedMap String Value) (s : State),
    lo ≤ s.heap.next → MadeEntries lo s.heap entries.entries values.entries →
      Builds (fromJsonObject entries ms) s fun es h =>
        MadeEntries lo h es.entries (Json.memberValues values ms).entries
  | [], lo, entries, values, s, hlo, h => by
    rw [fromJsonObject, Json.memberValues]
    exact .pure h
  | (key, v) :: ms, lo, entries, values, s, hlo, h => by
    rw [fromJsonObject, Json.memberValues]
    refine (fromJson_made v s).bind fun e t hst he => ?_
    have before : MadeEntries lo t.heap entries.entries values.entries :=
      h.imp fun _ _ he => ⟨he.1, he.2.mono (Nat.le_refl _) hst⟩
    have hlo' := hlo.trans hst.next
    generalize v.value = w at he ⊢
    cases he with
    | none => exact fromJsonObject_made ms lo entries values t hlo' before
    | some he =>
      refine fromJsonObject_made ms lo (entries.insert key _) (values.insert key _) t hlo' ?_
      exact forall₂_insertEntries before (he.mono hlo (.refl _ _))

end

end reading

/-! ## Back -/

section back

variable {h : Heap}

mutual

/-- **What comes back of an export** is the value without what is left out. -/
theorem value_json : ∀ {e : Entity} {x : Value}, h.graph.Unfolds e x →
    x.json.bind Json.value = x.prune
  | e, _, .node hs => by
    show (Value.json (.node (h.label e) _)).bind Json.value = Value.prune (.node (h.label e) _)
    cases e with
    | boolean | integer | real | string =>
      cases hs
      rfl
    | array a =>
      rw [Heap.label, Value.json, Value.prune, Option.bind_some, Json.value, elementValues_json hs]
    | dictionary kind a =>
      cases kind with
      | dictionary =>
        have sorted : ((h.cell .dictionary a).entries.map Prod.fst).Pairwise (· < ·) :=
          List.pairwise_map.2 (h.cell .dictionary a).sorted
        rw [Heap.label, Value.json, Value.prune, Option.bind_some, Json.value,
          memberValues_json hs sorted .empty nofun]
        rfl
      | _ => rfl
    | _ => rfl

theorem elementValues_json : ∀ {es : List Entity} {ts : List Value}, h.graph.UnfoldsAll es ts →
    Json.elementValues (Value.jsonElements ts) = Value.pruneElements ts
  | _, _, .nil => rfl
  | _, _, .cons (t := t) he hs => by
    have first := value_json he
    have rest := elementValues_json hs
    rw [Value.jsonElements, Value.pruneElements, ← first]
    cases Value.json t with
    | none => exact rest
    | some j =>
      show Json.elementValues (j :: Value.jsonElements _) = _
      rw [Json.elementValues, rest]
      rfl

/-- The keys of an export are in order, so that each member comes after those before it. -/
theorem memberValues_json : ∀ {keys : List String} {es : List Entity} {ts : List Value},
    h.graph.UnfoldsAll es ts → keys.Pairwise (· < ·) → ∀ entries : SortedMap String Value,
      (∀ e ∈ entries.entries, ∀ key ∈ keys, e.1 < key) →
        (Json.memberValues entries (Value.jsonMembers keys ts)).entries =
          entries.entries ++ Value.pruneEntries keys ts
  | [], _, _, _, _, entries, _ => by
    rw [Value.jsonMembers, Value.pruneEntries, Json.memberValues, List.append_nil]
    all_goals simp
  | _ :: _, _, _, .nil, _, entries, _ => by
    rw [Value.jsonMembers, Value.pruneEntries, Json.memberValues, List.append_nil]
    all_goals simp
  | key :: keys, _, _, .cons (t := t) he hs, hk, entries, hlt => by
    obtain ⟨above, hk⟩ := List.pairwise_cons.1 hk
    have first := value_json he
    have below : ∀ e ∈ entries.entries, e.1 < key := fun e he => hlt e he key List.mem_cons_self
    have rest := memberValues_json hs hk
    rw [Value.jsonMembers, Value.pruneEntries, ← first]
    cases Value.json t with
    | none =>
      exact rest entries fun e he k hk => hlt e he k (List.mem_cons_of_mem _ hk)
    | some j =>
      show (Json.memberValues entries ((key, j) :: Value.jsonMembers keys _)).entries = _
      rw [Json.memberValues, Option.bind_some]
      cases j.value with
      | none => exact rest entries fun e he k hk => hlt e he k (List.mem_cons_of_mem _ hk)
      | some v =>
        have inserted := SortedMap.entries_insert_of_lt below v
        refine (rest (entries.insert key v) fun e he k hk => ?_).trans ?_
        · rw [inserted] at he
          rcases List.mem_append.1 he with he | he
          · exact hlt e he k (List.mem_cons_of_mem _ hk)
          · rw [List.mem_singleton.1 he]
            exact above k hk
        · rw [inserted, List.append_assoc]
          rfl

end

end back

/-- **The round trip of a request**: the export of a dictionary ends, and what is read back, in any
process, is the value of the dictionary without what is of another kind, and the whole of it if
there is nothing of another kind. -/
theorem request_round_trip (s t : State) (a : Nat) (x : Value)
    (hx : s.heap.HasValue (.dictionary .dictionary a) x) :
    ∃ ms, (∃ n, ∀ m, n ≤ m →
        toJson s.heap m (.dictionary .dictionary a) = some (some (.object ms))) ∧
      ∃ e p, (fromJson (.object ms) t).exit = .ok (some e) ∧
        ((fromJson (.object ms)).after t).heap.HasValue e p ∧ Value.prune x = some p ∧
          (Value.Plain x → p = x) := by
  have shape : ∃ ms, Value.json x = some (.object ms) := by
    cases hx
    exact ⟨_, rfl⟩
  obtain ⟨ms, hms⟩ := shape
  have back := value_json hx
  rw [hms, Option.bind_some] at back
  obtain ⟨e, hexit, -, made⟩ := fromJson_made (.object ms) t
  rw [back] at made
  rw [Json.value] at back
  rw [← back] at made
  cases made with
  | some made =>
    refine ⟨ms, ⟨x.size, fun m hm => ?_⟩, _, _, hexit, made _ fun _ _ _ _ => rfl, back.symm,
      fun hp => ?_⟩
    · rw [toJson_unfolds hx m hm, hms]
    · rw [hp.prune_eq] at back
      exact Option.some.inj back

/-- The heap of `(n = 5, v = <void>)`. -/
def mixedHeap : Heap :=
  (Heap.initial.alloc .integer 5).alloc .dictionary
    ((SortedMap.empty.insert "n" (.integer 1)).insert "v" .void)

def mixed : Value :=
  .node (.dictionary .dictionary ["n", "v"]) [.node (.integer 5) [], .node .void []]

theorem mixed_hasValue : mixedHeap.HasValue (.dictionary .dictionary 2) mixed := by
  have parts : mixedHeap.graph.UnfoldsAll [.integer 1, .void]
      [.node (.integer 5) [], .node .void []] := .cons (.node .nil) (.cons (.node .nil) .nil)
  exact .node parts

theorem request_round_trip_mixed : ∃ ms e p,
    (fromJson (.object ms) (.fresh [])).exit = .ok (some e) ∧
      ((fromJson (.object ms)).after (.fresh [])).heap.HasValue e p ∧
        Value.prune mixed = some p := by
  obtain ⟨ms, -, e, p, hexit, hvalue, hp, -⟩ :=
    request_round_trip { State.fresh [] with heap := mixedHeap } (.fresh []) 2 mixed mixed_hasValue
  exact ⟨ms, e, p, hexit, hvalue, hp⟩

end EzCpp.Flow
