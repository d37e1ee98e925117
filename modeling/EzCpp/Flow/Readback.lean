import EzCpp.Flow.Pruning
import EzCpp.Flow.Reading

/-!
# Representations read back

The representation of a value, read as an expression and evaluated. It is the value again exactly
where each integer fits in 32 bits, and each duration has a count of 32 bits and a unit that is not
the minute.
-/

namespace EzCpp.Flow

open EzCpp.Lib Ast

/-! ## The representation of a value -/

section Representations

variable {host : Host} {h : Heap}

theorem intercalate_comma (ls : List (List Char)) :
    [',', ' '].intercalate ls = Value.separated ls := by
  induction ls with
  | nil => rfl
  | cons l ls ih =>
    cases ls with
    | nil => simp [Value.separated]
    | cons m ls =>
      rw [List.intercalate_cons_cons, ih]
      simp [Value.separated]

/-- Texts with a comma between, in brackets. -/
theorem bracketed (l r : Char) (ls : List (List Char)) :
    String.singleton l ++ ", ".intercalate (ls.map String.ofList) ++ String.singleton r =
      String.ofList (l :: (Value.separated ls ++ [r])) := by
  apply String.toList_injective
  simp [intercalate_comma, Function.comp_def]

/-- The entries are represented as their values are, each after its key. -/
theorem mapM_representation {n : Nat} {entries : List (String × Entity)} {ls : List (List Char)}
    (hl : (entries.map Prod.snd).mapM (representation host h n) = some (ls.map String.ofList)) :
    (entries.mapM fun entry => do pure (entry.1 ++ "=" ++ (← representation host h n entry.2))) =
      some ((List.zipWith Value.entryChars (entries.map Prod.fst) ls).map String.ofList) := by
  induction entries generalizing ls with
  | nil =>
    cases ls with
    | nil => rfl
    | cons l ls => cases hl
  | cons entry entries ih =>
    rw [List.map_cons, List.mapM_cons] at hl
    obtain ⟨text, htext, hl⟩ := Option.bind_eq_some_iff.1 hl
    obtain ⟨texts, htexts, hl⟩ := Option.bind_eq_some_iff.1 hl
    cases ls with
    | nil => cases hl
    | cons l ls =>
      have parts := List.cons.inj (Option.some.inj hl)
      have first : entry.1 ++ "=" ++ text = String.ofList (Value.entryChars entry.1 l) := by
        rw [parts.1]
        apply String.toList_injective
        simp [Value.entryChars]
      rw [List.mapM_cons, htext, ih (htexts.trans (congrArg some parts.2)), List.map_cons,
        List.zipWith_cons_cons, List.map_cons, ← first]
      rfl

mutual

/-- **The representation of an entity is the text of its value**, with enough steps. -/
theorem representation_unfolds : ∀ {e : Entity} {x : Value}, h.graph.Unfolds e x → x.HasSyntax →
    ∀ n, x.size ≤ n → representation host h n e = some (String.ofList x.chars)
  | e, .node _ ts, .node hs, hl, n, hn => by
    rw [LabelledTree.size] at hn
    obtain ⟨n, rfl⟩ : ∃ m, n = m + 1 := ⟨n - 1, by omega⟩
    have parts := representation_unfoldsAll hs
    change Value.HasSyntax (.node (h.label e) ts) at hl
    show _ = some (String.ofList (Value.chars (.node (h.label e) ts)))
    cases e with
    | boolean a => rw [representation, Heap.label, Value.chars, String.ofList_toList]
    | integer a => rw [representation, Heap.label, Value.chars, String.ofList_toList]
    | string a =>
      rw [representation, Heap.label, Value.chars]
      refine congrArg some (String.toList_injective ?_)
      simp
    | duration a =>
      rw [representation, Heap.label, Value.chars, ← String.toList_append, String.ofList_toList]
    | array a =>
      cases hl with
      | array hts =>
        have elements : (h.cell .array a).mapM (representation host h n) = _ :=
          parts hts n (by omega)
        rw [representation, elements, Heap.label, Value.chars, ← bracketed]
        rfl
    | dictionary kind a =>
      generalize hlabel : h.label (.dictionary kind a) = label at hl
      cases hl with
      | dictionary hlen hk hts =>
        cases hlabel
        have entries := mapM_representation (parts hts n (by omega))
        rw [representation, entries, Value.chars, ← bracketed]
        rfl
      | _ => cases hlabel
    | _ => cases hl

theorem representation_unfoldsAll : ∀ {es : List Entity} {ts : List Value},
    h.graph.UnfoldsAll es ts → (∀ t ∈ ts, t.HasSyntax) → ∀ n, LabelledTree.sizes ts ≤ n →
      es.mapM (representation host h n) = some ((Value.charsAll ts).map String.ofList)
  | _, _, .nil, _, _, _ => rfl
  | _, _, .cons he hs, hl, n, hn => by
    rw [LabelledTree.sizes] at hn
    obtain ⟨ht, hts⟩ := List.forall_mem_cons.1 hl
    rw [List.mapM_cons, representation_unfolds he ht n (by omega),
      representation_unfoldsAll hs hts n (by omega)]
    rfl

end

end Representations

/-! ## The evaluation of what is written -/

section Evaluation

variable {host : Host} {invoke : WorkflowInvocation → Eval Entity} {h : Heap} {s : State}

/-- An expression that is a unary expression is evaluated as this expression. -/
theorem evalExpression_unary (e : UnaryExpression) :
    evalExpression host invoke e.toExpression = evalUnary host invoke e := by
  simp only [UnaryExpression.toExpression, evalExpression, evalLogical, evalLogicalTerms,
    evalEquality, evalEqualityTerms, evalRelational, evalRelationalTerms, evalAdditive,
    evalAdditiveTerms, evalMultiplicative, evalMultiplicativeTerms, Coroutine.bind_pure]

theorem evalUnary_none (e : PrimaryExpression) :
    evalUnary host invoke (.mk none e) = evalPrimary host invoke e := by
  rw [evalUnary]
  exact Coroutine.bind_pure _

theorem Builds.stored {k : Kind} {c : k.Content} {f : Nat → Entity} {x : Value}
    (hf : ∀ h : Heap, h.cell k s.heap.next = c → h.HasValue (f s.heap.next) x) :
    Builds (do return f (← Eval.alloc k c) : Eval Entity) s fun e h => Made s.heap.next h e x := by
  refine (Builds.alloc k c).bind fun a t _ ha => .pure ?_
  obtain ⟨rfl, ht⟩ := ha
  rw [ht]
  exact .cell hf

theorem evalUnaryOp_minus (a : Nat) (s : State) :
    Builds (evalUnaryOp .minus (.integer a)) s fun e h =>
      Made s.heap.next h e (.node (.integer (-s.heap.cell .integer a)) []) :=
  ⟨.integer s.heap.next, rfl, Heap.sameBut_alloc none s.heap .integer _,
    .cell (k := .integer) (c := -s.heap.cell .integer a) fun _ hc => hc ▸ .node .nil⟩

/-- An integer is read without its sign, which is an operator. -/
theorem evalInteger_made (i : Int64) (s : State) :
    Builds (evalUnary host invoke (Value.written (.node (.integer i) []))) s fun e h =>
      Made s.heap.next h e (.node (.integer i) []) := by
  rw [Value.written]
  split
  case isTrue hi =>
    have same : -Int64.ofInt i.toInt.natAbs = i := by
      rw [← Int64.ofInt_neg, Int.ofNat_natAbs_of_nonpos (le_of_lt hi), Int.neg_neg, Int64.ofInt_toInt]
    rw [evalUnary, evalPrimary, evalLiteral]
    refine Builds.bind (P := fun e t => ∃ a, e = .integer a ∧
      t.cell .integer a = .ofInt i.toInt.natAbs) ?_ fun e t hst he => ?_
    · refine (Builds.alloc .integer _).bind fun a t _ ha => .pure ⟨a, rfl, ?_⟩
      rw [ha.1, ha.2, Heap.alloc_cell_self]
    · obtain ⟨a, rfl, ha⟩ := he
      refine (evalUnaryOp_minus a t).mono fun e h _ he => ?_
      rw [ha, same] at he
      exact he.mono hst.next (.refl _ _)
  case isFalse hi =>
    have same : Int64.ofInt i.toInt.natAbs = i := by
      rw [Int.natAbs_of_nonneg (not_lt.1 hi), Int64.ofInt_toInt]
    rw [evalUnary_none, evalPrimary, evalLiteral, same]
    exact .stored (k := .integer) fun h hc => hc ▸ .node .nil

/-- The keys of a dictionary are in order. -/
theorem sorted_of_label {e : Entity} {k : DictionaryKind} {keys : List String}
    (hl : h.label e = .dictionary k keys) : keys.Pairwise (· < ·) := by
  cases e with
  | dictionary k a =>
    cases hl
    exact List.pairwise_map.2 (h.cell .dictionary a).sorted
  | _ => cases hl

mutual

/-- **What is written of a value is evaluated to it**, in any state. -/
theorem evalWritten_made : ∀ {e : Entity} {x : Value}, h.graph.Unfolds e x → x.HasSyntax →
    ∀ s : State, Builds (evalUnary host invoke x.written) s fun e h => Made s.heap.next h e x
  | e, .node _ ts, .node hs, hl, s => by
    generalize hlabel : h.graph.label e = label at hl ⊢
    cases hl with
    | boolean b =>
      rw [Value.written, evalUnary_none, evalPrimary, evalLiteral]
      exact .stored (k := .boolean) fun h hc => hc ▸ .node .nil
    | integer i => exact evalInteger_made i s
    | string t ht =>
      rw [Value.written, evalUnary_none, evalPrimary, evalLiteral]
      exact .stored (k := .string) fun h hc => hc ▸ .node .nil
    | duration d =>
      rw [Value.written, evalUnary_none, evalPrimary, evalLiteral]
      exact .stored (k := .duration) fun h hc => hc ▸ .node .nil
    | array hts =>
      rw [Value.written, evalUnary_none, evalPrimary]
      refine (evalElements_made hs hts s).bind fun es t hst hes => ?_
      refine (Builds.alloc .array es).bind fun a u _ ha => .pure ?_
      obtain ⟨rfl, hu⟩ := ha
      rw [hu]
      exact .array hst.next hes
      all_goals nofun
    | @dictionary keys _ hlen hk hts =>
      rw [Value.written, evalUnary_none, evalPrimary]
      refine (evalAssignments_made hs hts (sorted_of_label hlabel) s.heap.next .empty [] s
        (Nat.le_refl _) .nil nofun).bind fun es t hst hes => ?_
      refine (Builds.alloc .dictionary es).bind fun a u _ ha => .pure ?_
      obtain ⟨rfl, hu⟩ := ha
      rw [List.nil_append] at hes
      have made := Made.dictionary hst.next hes
      rw [List.map_fst_zip (Nat.le_of_eq hlen), List.map_snd_zip (Nat.le_of_eq hlen.symm)] at made
      rw [hu]
      exact made

theorem evalElements_made : ∀ {es : List Entity} {ts : List Value}, h.graph.UnfoldsAll es ts →
    (∀ t ∈ ts, t.HasSyntax) → ∀ s : State,
      Builds (evalElements host invoke (Value.writtenAll ts)) s fun es h =>
        List.Forall₂ (Made s.heap.next h) es ts
  | _, _, .nil, _, s => by
    rw [Value.writtenAll, evalElements]
    exact .pure .nil
  | _, _, .cons he hs, hl, s => by
    obtain ⟨ht, hts⟩ := List.forall_mem_cons.1 hl
    rw [Value.writtenAll, evalElements, evalExpression_unary]
    refine (evalWritten_made he ht s).bind fun e t hst he => ?_
    refine (evalElements_made hs hts t).bind fun es u htu hes => .pure ?_
    exact .cons (he.mono (Nat.le_refl _) htu) (hes.imp fun _ _ he => he.mono hst.next (.refl _ _))

/-- The keys are in order, so that each entry comes after those before it. -/
theorem evalAssignments_made : ∀ {keys : List String} {es : List Entity} {ts : List Value},
    h.graph.UnfoldsAll es ts → (∀ t ∈ ts, t.HasSyntax) → keys.Pairwise (· < ·) →
      ∀ (lo : Nat) (entries : SortedMap String Entity) (values : List (String × Value)) (s : State),
        lo ≤ s.heap.next → MadeEntries lo s.heap entries.entries values →
          (∀ e ∈ entries.entries, ∀ key ∈ keys, e.1 < key) →
            Builds (evalAssignments host invoke entries
              (List.zipWith Assignment.mk keys (Value.writtenAll ts))) s fun es h =>
                MadeEntries lo h es.entries (values ++ keys.zip ts)
  | [], _, _, _, _, _, lo, entries, values, s, _, hm, _ => by
    rw [List.zipWith_nil_left, evalAssignments, List.zip_nil_left, List.append_nil]
    exact .pure hm
  | _ :: _, _, _, .nil, _, _, lo, entries, values, s, _, hm, _ => by
    rw [Value.writtenAll, List.zipWith_nil_right, evalAssignments, List.zip_nil_right,
      List.append_nil]
    exact .pure hm
  | key :: keys, _, v :: ts, .cons he hs, hl, hk, lo, entries, values, s, hlo, hm, hlt => by
    obtain ⟨ht, hts⟩ := List.forall_mem_cons.1 hl
    obtain ⟨above, hk⟩ := List.pairwise_cons.1 hk
    have below : ∀ e ∈ entries.entries, e.1 < key := fun e he => hlt e he key List.mem_cons_self
    rw [Value.writtenAll, List.zipWith_cons_cons, evalAssignments, evalExpression_unary]
    refine (evalWritten_made he ht s).bind fun e t hst he => ?_
    have inserted := SortedMap.entries_insert_of_lt below e
    have before : MadeEntries lo t.heap (entries.insert key e).entries (values ++ [(key, v)]) := by
      rw [inserted]
      refine List.rel_append (hm.imp fun _ _ he => ⟨he.1, he.2.mono (Nat.le_refl _) hst⟩) ?_
      exact .cons ⟨rfl, he.mono hlo (.refl _ _)⟩ .nil
    have rest := evalAssignments_made hs hts hk lo (entries.insert key e) _ t (hlo.trans hst.next)
      before fun e' he' k hk => by
        rw [inserted] at he'
        rcases List.mem_append.1 he' with he' | he'
        · exact hlt e' he' k (List.mem_cons_of_mem _ hk)
        · rw [List.mem_singleton.1 he']
          exact above k hk
    rw [List.append_assoc] at rest
    exact rest

end

end Evaluation

/-! ## The round trip -/

/-- The text is an expression as a whole, and this is evaluated to the value. -/
def ReadsBack (host : Host) (invoke : WorkflowInvocation → Eval Entity) (reals : Grammar.Reals)
    (s : State) (text : String) (x : Value) : Prop :=
  ∃ expression, Grammar.parseUsing (Grammar.expression reals) text = some expression ∧
    ∃ e, (evalExpression host invoke expression s).exit = .ok e ∧
      ((evalExpression host invoke expression).after s).heap.HasValue e x

section RoundTrip

open Grammar

variable {h : Heap} {e : Entity} {x : Value} {reals : Reals}

theorem closes_nil : Closes [] := fun _ hc => by cases hc

theorem skip_chars (hl : x.HasSyntax) : skip x.chars = x.chars ++ [] := by
  simpa using firm_chars hl []

theorem parseUsing_chars (hl : x.HasSyntax) (hr : x.InRange) :
    parseUsing (expression reals) (String.ofList x.chars) = some x.written.toExpression := by
  have hread : ReadsText (expression reals (x.chars.length + 1)) x.written.toExpression x.chars :=
    reads_chars hl hr (Nat.lt_succ_self _)
  rw [parseUsing, String.toList_ofList, hread closes_nil (skip_chars hl)]
  rfl

theorem parseUsing_chars_none (hl : x.HasSyntax) (hr : ¬ x.InRange) :
    parseUsing (expression reals) (String.ofList x.chars) = none := by
  have hstray : Strays (expression reals (x.chars.length + 1)) x.chars :=
    strays_chars hl hr (Nat.lt_succ_self _)
  rw [parseUsing, String.toList_ofList]
  rcases hstray closes_nil (skip_chars hl) with hfail | habort | ⟨e, rest, hok⟩
  · rw [hfail]
  · rw [habort]
  · have hrest : skip ('m' :: rest) = 'm' :: rest :=
      skip_of_solid (solid_of_ne (by decide) (by decide))
    simp [hok, hrest]

variable (host : Host)

theorem readsBack_chars (invoke : WorkflowInvocation → Eval Entity) (s : State)
    (hx : h.HasValue e x) (hl : x.HasSyntax) :
    ReadsBack host invoke reals s (String.ofList x.chars) x ↔ x.InRange := by
  constructor
  · rintro ⟨expression, hparse, -⟩
    by_contra hr
    rw [parseUsing_chars_none hl hr] at hparse
    cases hparse
  · intro hr
    have hbuilds : Builds (evalUnary host invoke x.written) s fun e h => Made s.heap.next h e x :=
      evalWritten_made hx hl s
    obtain ⟨e', hexit, -, made⟩ := hbuilds
    refine ⟨_, parseUsing_chars hl hr, e', ?_⟩
    rw [evalExpression_unary]
    exact ⟨hexit, made _ fun _ _ _ _ => rfl⟩

theorem eq_of_representation (hx : h.HasValue e x) (hl : x.HasSyntax) {n : Nat} {text : String}
    (htext : ∀ m, n ≤ m → representation host h m e = some text) : text = String.ofList x.chars := by
  have same := htext _ (Nat.le_max_left n x.size)
  rw [representation_unfolds hx hl _ (Nat.le_max_right n x.size)] at same
  exact (Option.some.inj same).symm

end RoundTrip

/-- **The round trip of a representation.** Whatever the process in which it is evaluated, the
representation of a value is read back as the value if and only if each integer in it is one of 32
bits, but for its sign, and each duration has a count of 32 bits and is not in minutes. -/
theorem readsBack_iff (host : Host) (invoke : WorkflowInvocation → Eval Entity)
    (reals : Grammar.Reals) (h : Heap) (e : Entity) (x : Value) (s : State)
    (hx : h.HasValue e x) (hl : x.HasSyntax) :
    ∃ text, (∃ n, ∀ m, n ≤ m → representation host h m e = some text) ∧
      (ReadsBack host invoke reals s text x ↔ x.InRange) :=
  ⟨_, ⟨x.size, representation_unfolds hx hl⟩, readsBack_chars host invoke s hx hl⟩

/-- The heap of `(a=[-5, true], d=2sec)`. -/
def nestedHeap : Heap :=
  ((((Heap.initial.alloc .integer (-5)).alloc .boolean true).alloc .array
    [.integer 1, .boolean 2]).alloc .duration ⟨2, .sec⟩).alloc .dictionary
      ((SortedMap.empty.insert "a" (.array 3)).insert "d" (.duration 4))

def nested : Value :=
  .node (.dictionary .dictionary ["a", "d"])
    [.node .array [.node (.integer (-5)) [], .node (.boolean true) []],
      .node (.duration ⟨2, .sec⟩) []]

theorem nested_hasValue : nestedHeap.HasValue (.dictionary .dictionary 5) nested := by
  have elements : nestedHeap.graph.UnfoldsAll [.integer 1, .boolean 2]
      [.node (.integer (-5)) [], .node (.boolean true) []] := .cons (.node .nil) (.cons (.node .nil) .nil)
  have parts : nestedHeap.graph.UnfoldsAll [.array 3, .duration 4] nested.children :=
    .cons (.node elements) (.cons (.node .nil) .nil)
  exact .node parts

theorem nested_hasSyntax : nested.HasSyntax := by
  have elements : ∀ t ∈ [.node (.integer (-5)) [], .node (.boolean true) []], Value.HasSyntax t :=
    List.forall_mem_cons.2 ⟨.integer _, List.forall_mem_singleton.2 (.boolean _)⟩
  have keys : ∀ key ∈ ["a", "d"], Grammar.identifier key.toList = .ok key [] := by decide
  exact .dictionary rfl keys
    (List.forall_mem_cons.2 ⟨.array elements, List.forall_mem_singleton.2 (.duration _)⟩)

theorem nested_inRange : nested.InRange := by
  simp only [nested, Value.inRange_node, List.forall_mem_cons, Label.InRange, List.not_mem_nil,
    false_imp_iff, implies_true]
  decide

theorem readsBack_nested : ∃ text,
    (∃ n, ∀ m, n ≤ m → representation .plain nestedHeap m (.dictionary .dictionary 5) = some text) ∧
      ReadsBack .plain (evalInvocations .plain 0) ⟨fun _ => none, 0, 0⟩ (.fresh []) text nested := by
  obtain ⟨text, htext, hread⟩ := readsBack_iff .plain (evalInvocations .plain 0)
    ⟨fun _ => none, 0, 0⟩ nestedHeap _ nested (.fresh []) nested_hasValue nested_hasSyntax
  exact ⟨text, htext, hread.2 nested_inRange⟩

/-- Five minutes are represented as `5min`, and the grammar has `mn`. -/
theorem readback_fails : ¬ ∀ (host : Host) (invoke : WorkflowInvocation → Eval Entity)
    (reals : Grammar.Reals) (h : Heap) (e : Entity) (x : Value) (s : State), h.HasValue e x →
      x.HasSyntax → ∃ text, (∃ n, ∀ m, n ≤ m → representation host h m e = some text) ∧
        ReadsBack host invoke reals s text x := by
  intro hall
  have hx : (Heap.initial.alloc .duration ⟨5, .min⟩).HasValue (.duration 1)
      (.node (.duration ⟨5, .min⟩) []) := .node .nil
  obtain ⟨text, ⟨n, htext⟩, hread⟩ := hall .plain (evalInvocations .plain 0)
    ⟨fun _ => none, 0, 0⟩ _ _ _ (.fresh []) hx (.duration _)
  rw [eq_of_representation .plain hx (.duration _) htext] at hread
  have hr := (readsBack_chars .plain _ _ hx (.duration _)).1 hread
  exact (Value.inRange_node.1 hr).1.1 rfl

end EzCpp.Flow
