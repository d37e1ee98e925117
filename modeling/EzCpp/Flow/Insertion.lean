import EzCpp.Flow.Sharing

/-!
# Insertion into a dictionary

`insert` is one action on the heap: the key is moved out of its string, and the value becomes an
entry, with the storage it has, unless there is one under this key. Nothing else shows the move if
the string is empty anyway, and the value keeps its value if the dictionary is no part of it
(`insert_law_iff`).
-/

namespace EzCpp.Flow

open EzCpp.Lib Ast

/-! ## What an insertion does to values -/

namespace Heap

variable {h : Heap} {a b : Nat} {e value : Entity} {x : Value}

theorem write_same (h : Heap) (k : Kind) (a : Nat) : h.write k a (h.cell k a) = h := by
  have cell : (h.write k a (h.cell k a)).cell = h.cell := by
    funext k' a'
    by_cases hst : (⟨k', a'⟩ : Storage) = ⟨k, a⟩
    · cases hst
      exact h.write_cell_self k a _
    · exact h.write_cell_of_ne _ hst
  cases h
  exact congrArg (Heap.mk _) cell

/-- Moving out of a string that is empty changes nothing. -/
theorem insert_empty (hb : h.cell .string b = "") : h.insert a b value =
    h.write .dictionary a ((h.cell .dictionary a).insert "" value) := by
  have moved : h.write .string b "" = h := by
    rw [← hb]
    exact h.write_same .string b
  rw [insert, hb, moved]

theorem insert_present {w : Entity} (hb : h.cell .string b = "")
    (hw : (h.cell .dictionary a).find? "" = some w) : h.insert a b value = h := by
  rw [insert_empty hb, SortedMap.insert_eq_self hw]
  exact h.write_same .dictionary a

/-- An entry that contains its dictionary has no value. -/
theorem not_hasValue_of_cycle (he : e ∈ (h.cell .dictionary a).entries.map Prod.snd)
    (hc : h.Contains e ⟨.dictionary, a⟩) : ¬ h.HasValue e x := by
  intro hx
  obtain ⟨w, u, hw, hu, hle⟩ := LabelledGraph.Unfolds.reaches hc hx
  have child : e ∈ h.graph.children w := by
    cases w <;> cases hw
    exact he
  obtain ⟨u', hu', hlt⟩ := hu.child child
  rw [hu'.unique hx] at hlt
  omega

/-- A write to a dictionary leaves alone the value of what is an entry afterwards, if the entry
did not have one with the dictionary in it. -/
theorem hasValue_entry (c : SortedMap String Entity) (he : e ∈ c.entries.map Prod.snd)
    (hn : ∀ x, h.HasValue e x → ¬ h.Contains e ⟨.dictionary, a⟩) (x : Value) :
    (h.write .dictionary a c).HasValue e x ↔ h.HasValue e x := by
  by_cases hc : h.Contains e ⟨.dictionary, a⟩
  · have entry : e ∈ ((h.write .dictionary a c).cell .dictionary a).entries.map Prod.snd := by
      rwa [write_cell_self]
    have after : (h.write .dictionary a c).Contains e ⟨.dictionary, a⟩ :=
      (LabelledGraph.reaches_congr (h.graph_write .dictionary a c)).2 hc
    exact iff_of_false (not_hasValue_of_cycle entry after) fun hx => hn x hx hc
  · exact hasValue_write (k := .dictionary) c hc

end Heap

/-! ## Calls -/

/-- How the arguments of a call are given. -/
inductive ArgumentStyle
  | unnamed
  | named
  /-- the value comes first -/
  | swapped
deriving DecidableEq, Repr

def insertArguments (k v : Identifier) : ArgumentStyle → List (FunctionArgument Expression)
  | .unnamed => [⟨none, (IdentifierPath.mk k []).toExpression⟩,
      ⟨none, (IdentifierPath.mk v []).toExpression⟩]
  | .named => [⟨some "key", (IdentifierPath.mk k []).toExpression⟩,
      ⟨some "value", (IdentifierPath.mk v []).toExpression⟩]
  | .swapped => [⟨some "value", (IdentifierPath.mk v []).toExpression⟩,
      ⟨some "key", (IdentifierPath.mk k []).toExpression⟩]

/-- The values of the arguments. -/
def insertValues (b : Nat) (value : Entity) : ArgumentStyle → CallArguments
  | .unnamed => [(none, .string b), (none, value)]
  | .named => [(some "key", .string b), (some "value", value)]
  | .swapped => [(some "value", value), (some "key", .string b)]

/-- `d.insert(k, v)` -/
def insertCall (d k v : Identifier) (style : ArgumentStyle) : Expression :=
  (PrimaryExpression.functionCall ⟨⟨d, ["insert"]⟩, insertArguments k v style⟩).toExpression

section Calls

variable (host : Host) (invoke : WorkflowInvocation → Eval Entity) {s : State}
  {d k v : Identifier} {kind : DictionaryKind} {a b : Nat} {value : Entity}

theorem run_variable {x : Identifier} {e : Entity} (h : s.findEntity x = some e) :
    evalIdentifierPath ⟨x, []⟩ s = ⟨.ok e, []⟩ := by
  rw [evalIdentifierPath, Eval.gets, Coroutine.gets_bind, h]
  rfl

theorem run_callArguments {l : List (FunctionArgument Expression)} {args : CallArguments}
    (h : List.Forall₂ (fun p q => p.name = q.1 ∧ ∃ x, p.value = (IdentifierPath.mk x []).toExpression ∧
      s.findEntity x = some q.2) l args) :
    evalCallArguments host invoke l s = ⟨.ok args, []⟩ := by
  induction h with
  | nil => rw [evalCallArguments]; rfl
  | @cons p q l args hp _ ih =>
    obtain ⟨name, e⟩ := p
    obtain ⟨name', y⟩ := q
    obtain ⟨rfl, x, rfl, hx⟩ := hp
    have first : evalExpression host invoke (IdentifierPath.mk x []).toExpression s = ⟨.ok y, []⟩ := by
      rw [evalExpression_path]
      exact run_variable hx
    rw [evalCallArguments, Coroutine.bind_quiet first, Coroutine.bind_quiet ih]
    rfl

/-- The call finds the dictionary, and its arguments the variables. -/
theorem run_insertCall (hd : s.findEntity d = some (.dictionary kind a))
    (hk : s.findEntity k = some (.string b)) (hv : s.findEntity v = some value)
    (style : ArgumentStyle) : evalExpression host invoke (insertCall d k v style) s =
      (insert kind a (insertValues b value style) >>= Eval.ensureValue) s := by
  have callee : evalIdentifierPath ⟨d, ["insert"]⟩ s =
      ⟨.ok (.memberFunction kind.name "insert"), []⟩ := by
    rw [evalIdentifierPath, Eval.gets, Coroutine.gets_bind, hd]
    rfl
  have self : evalIdentifierPath ⟨d, []⟩ s = ⟨.ok (.dictionary kind a), []⟩ := run_variable hd
  have values : evalCallArguments host invoke (insertArguments k v style) s =
      ⟨.ok (insertValues b value style), []⟩ := by
    refine run_callArguments host invoke ?_
    cases style with
    | unnamed | named => exact .cons ⟨rfl, k, rfl, hk⟩ (.cons ⟨rfl, v, rfl, hv⟩ .nil)
    | swapped => exact .cons ⟨rfl, v, rfl, hv⟩ (.cons ⟨rfl, k, rfl, hk⟩ .nil)
  rw [insertCall, evalExpression_primary, evalPrimary, Coroutine.bind_quiet callee,
    evalCallable]
  show (evalIdentifierPath ⟨d, []⟩ >>= _) s = _
  rw [Coroutine.bind_quiet self, Coroutine.bind_quiet values]
  rfl

end Calls

/-! ## The law of an insertion -/

/-- Before and after: the dictionary has an entry under the key, which is the value unless there was
one; the other entries and the two variables are as they were; and a second call does nothing. -/
structure InsertLaw (s t : State) (again : Eval Entity) (a : Nat) (key : String) (k v : Identifier)
    (value : Entity) : Prop where
  entry : ∃ e, (t.heap.cell .dictionary a).find? key = some e ∧ ∀ x, t.heap.HasValue e x ↔
    s.heap.HasValue (((s.heap.cell .dictionary a).find? key).getD value) x
  others : ∀ name, name ≠ key →
    (t.heap.cell .dictionary a).find? name = (s.heap.cell .dictionary a).find? name ∧
      ∀ e, (s.heap.cell .dictionary a).find? name = some e → ∀ x,
        t.heap.HasValue e x ↔ s.heap.HasValue e x
  key : ∀ x, t.Reads ⟨k, []⟩ x ↔ s.Reads ⟨k, []⟩ x
  value : ∀ x, t.Reads ⟨v, []⟩ x ↔ s.Reads ⟨v, []⟩ x
  again : again.after t = t

section Law

variable {s t : State} {d k v : Identifier} {kind : DictionaryKind} {a b : Nat} {value : Entity}

theorem reads_variable {x : Identifier} {e : Entity} (h : s.findEntity x = some e) (y : Value) :
    s.Reads ⟨x, []⟩ y ↔ s.heap.HasValue e y := by
  rw [reads_iff_readsFrom h, readsFrom_nil]

theorem apply_insert_heap (s : State) (a b : Nat) (value : Entity) :
    (s.apply (.insert a b value)).heap = s.heap.insert a b value := rfl

/-- Where there is an entry under the empty key, nothing happens. -/
theorem apply_insert_present {w : Entity} (hb : s.heap.cell .string b = "")
    (hw : (s.heap.cell .dictionary a).find? "" = some w) : s.apply (.insert a b value) = s := by
  show { s with heap := s.heap.insert a b value } = s
  rw [Heap.insert_present hb hw]

/-- **An insertion under the empty key of what the dictionary is no part of.** -/
theorem insertLaw_of_empty (hk : s.findEntity k = some (.string b))
    (hv : s.findEntity v = some value) (hb : s.heap.cell .string b = "")
    (hp : ((s.heap.cell .dictionary a).find? "").isSome ∨
      ∀ x, s.heap.HasValue value x → ¬ s.heap.Contains value ⟨.dictionary, a⟩)
    {again : Eval Entity} (ha : ∀ t : State, t.scopes = s.scopes →
      again.after t = t.apply (.insert a b value)) :
    InsertLaw s (s.apply (.insert a b value)) again a "" k v value := by
  cases hw : (s.heap.cell .dictionary a).find? "" with
  | some w =>
    have same : s.apply (.insert a b value) = s := apply_insert_present hb hw
    rw [same]
    refine ⟨⟨w, hw, ?_⟩, fun _ _ => ⟨rfl, fun _ _ _ => .rfl⟩, fun _ => .rfl, fun _ => .rfl, ?_⟩
    · rw [hw]
      exact fun _ => .rfl
    · rw [ha s rfl, same]
  | none =>
    have apart := hp.resolve_left (by rw [hw]; exact Bool.false_ne_true)
    have heap : (s.apply (.insert a b value)).heap =
        s.heap.write .dictionary a ((s.heap.cell .dictionary a).insert "" value) :=
      Heap.insert_empty hb
    have cell : (s.apply (.insert a b value)).heap.cell .dictionary a =
        (s.heap.cell .dictionary a).insert "" value := by
      rw [heap, Heap.write_cell_self]
    have found : ((s.heap.cell .dictionary a).insert "" value).find? "" = some value :=
      SortedMap.find?_insert_self hw value
    have entries : ∀ name e, ((s.heap.cell .dictionary a).insert "" value).find? name = some e →
        e ∈ ((s.heap.cell .dictionary a).insert "" value).entries.map Prod.snd :=
      fun name e he => List.mem_map.2 ⟨_, SortedMap.mem_of_find? he, rfl⟩
    have values : ∀ x, (s.apply (.insert a b value)).heap.HasValue value x ↔
        s.heap.HasValue value x := by
      rw [heap]
      exact Heap.hasValue_entry _ (entries "" value found) apart
    have text : (s.apply (.insert a b value)).heap.cell .string b = "" := by
      rw [heap, Heap.write_cell_of_kind _ (by decide)]
      exact hb
    refine ⟨⟨value, by rw [cell, found], ?_⟩, fun name hn => ⟨?_, fun e he x => ?_⟩, fun x => ?_,
      fun x => ?_, ?_⟩
    · rw [hw]
      exact values
    · rw [cell, SortedMap.find?_insert, if_neg hn]
    · rw [heap]
      refine Heap.hasValue_entry _ (entries name e ?_) (fun y hy hc => ?_) x
      · rw [SortedMap.find?_insert, if_neg hn, he]
      · -- an entry that contains the dictionary has had no value before
        exact Heap.not_hasValue_of_cycle (List.mem_map.2 ⟨_, SortedMap.mem_of_find? he, rfl⟩) hc hy
    · rw [reads_variable (s := s.apply (.insert a b value)) hk, reads_variable hk, heap]
      exact Heap.hasValue_write (k := .dictionary) _ fun hc => by
        cases hc with
        | here he => cases he
        | child hx _ => cases hx
    · rw [reads_variable (s := s.apply (.insert a b value)) hv, reads_variable hv]
      exact values x
    · rw [ha (s.apply (.insert a b value)) rfl]
      exact apply_insert_present text (cell ▸ found)

/-- **An insertion touches only the dictionary exactly where its arguments have no names, the string
of the key is empty, and the dictionary is no part of a value that becomes an entry.** -/
theorem insert_law_iff (host : Host) (depth : Nat) (s : State) (d k v : Identifier)
    (style : ArgumentStyle) {kind : DictionaryKind} {a b : Nat} {value : Entity}
    (hd : s.findEntity d = some (.dictionary kind a)) (hk : s.findEntity k = some (.string b))
    (hv : s.findEntity v = some value) :
    (∃ r, (runExpression host depth (insertCall d k v style) s).exit = .ok r ∧
      InsertLaw s ((runExpression host depth (insertCall d k v style)).after s)
        (runExpression host depth (insertCall d k v style)) a (s.heap.cell .string b) k v value) ↔
    style = .unnamed ∧ s.heap.cell .string b = "" ∧
      (((s.heap.cell .dictionary a).find? "").isSome ∨
        ∀ x, s.heap.HasValue value x → ¬ s.heap.Contains value ⟨.dictionary, a⟩) := by
  have run : ∀ t : State, t.scopes = s.scopes →
      runExpression host depth (insertCall d k v .unnamed) t =
        ⟨.ok .void, [.insert a b value]⟩ := by
    intro t ht
    have find : ∀ x, t.findEntity x = s.findEntity x := fun x => by
      rw [State.findEntity, ht, State.findEntity]
    exact run_insertCall host (evalInvocations host depth) ((find d).trans hd)
      ((find k).trans hk) ((find v).trans hv) .unnamed
  have after : ∀ t : State, t.scopes = s.scopes →
      (runExpression host depth (insertCall d k v .unnamed)).after t =
        t.apply (.insert a b value) := by
    intro t ht
    rw [Coroutine.after, run t ht]
    rfl
  constructor
  · rintro ⟨r, hr, law⟩
    have unnamed : style = .unnamed := by
      rw [runExpression, run_insertCall host _ hd hk hv] at hr
      cases style with
      | unnamed => rfl
      | named | swapped => cases hr
    subst unnamed
    rw [after s rfl] at law
    have empty : s.heap.cell .string b = "" := by
      have before : s.Reads ⟨k, []⟩ (.node (.string (s.heap.cell .string b)) []) :=
        (reads_variable hk _).2 (.node .nil)
      have later := ((law.key _).2 before)
      rw [reads_variable (s := s.apply (.insert a b value)) hk] at later
      have label := later.label
      have moved : (s.heap.insert a b value).cell .string b = "" := by
        rw [Heap.insert, Heap.write_cell_of_kind _ (by decide), Heap.write_cell_self]
      injection label with hl
      rw [hl]
      exact moved
    refine ⟨rfl, empty, ?_⟩
    by_contra hn
    rw [not_or] at hn
    obtain ⟨absent, hc⟩ := hn
    push Not at hc
    obtain ⟨x, hx, hc⟩ := hc
    have hw : (s.heap.cell .dictionary a).find? "" = none := by
      cases hf : (s.heap.cell .dictionary a).find? "" with
      | none => rfl
      | some w => exact absurd (by rw [hf]; rfl) absent
    have later := (reads_variable (s := s.apply (.insert a b value)) hv x).1
      ((law.value x).2 ((reads_variable hv x).2 hx))
    rw [apply_insert_heap, Heap.insert_empty empty] at later
    refine Heap.not_hasValue_of_cycle (a := a) ?_ ?_ later
    · rw [Heap.write_cell_self]
      exact List.mem_map.2 ⟨_, SortedMap.mem_of_find? (SortedMap.find?_insert_self hw value), rfl⟩
    · exact (LabelledGraph.reaches_congr (s.heap.graph_write .dictionary a _)).2 hc
  · rintro ⟨rfl, empty, hp⟩
    refine ⟨.void, by rw [run s rfl], ?_⟩
    rw [after s rfl, empty]
    exact insertLaw_of_empty hk hv empty hp after

/-- `d` is a dictionary with the id of the interpreter in it, `k` this string, and `v` is `false`. -/
def insertionState (key : String) : State :=
  let entries := SortedMap.empty.insert "id" (.integer 1)
  let heap := ((State.fresh []).heap.alloc .dictionary entries).alloc .string key
  let s := { State.fresh [] with heap }
  ((s.declare "d" (.dictionary .dictionary 2)).declare "k" (.string 3)).declare "v" (.boolean 0)

theorem insert_empty_key :
    ∃ r, (runExpression .plain 0 (insertCall "d" "k" "v" .unnamed) (insertionState "")).exit = .ok r ∧
      InsertLaw (insertionState "")
        ((runExpression .plain 0 (insertCall "d" "k" "v" .unnamed)).after (insertionState ""))
        (runExpression .plain 0 (insertCall "d" "k" "v" .unnamed)) 2 "" "k" "v" (.boolean 0) := by
  refine (insert_law_iff .plain 0 (insertionState "") "d" "k" "v" .unnamed (a := 2) rfl rfl rfl).2
    ⟨rfl, rfl, .inr fun x _ hc => ?_⟩
  cases hc with
  | here he => cases he
  | child hx _ => cases hx

/-- The string of the key is empty afterwards. -/
theorem insert_moves_key :
    ¬ ∃ r, (runExpression .plain 0 (insertCall "d" "k" "v" .unnamed) (insertionState "a")).exit = .ok r ∧
      InsertLaw (insertionState "a")
        ((runExpression .plain 0 (insertCall "d" "k" "v" .unnamed)).after (insertionState "a"))
        (runExpression .plain 0 (insertCall "d" "k" "v" .unnamed)) 2 "a" "k" "v" (.boolean 0) := by
  rintro ⟨r, -, law⟩
  have before : (insertionState "a").Reads ⟨"k", []⟩ (.node (.string "a") []) :=
    (reads_variable (e := .string 3) rfl _).2 (.node .nil)
  have later := (law.key _).2 before
  rw [reads_variable (e := .string 3) rfl] at later
  have moved : "a" = "" := Label.string.inj later.label
  exact absurd moved (by decide)

end Law

end EzCpp.Flow
