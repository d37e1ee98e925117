import EzCpp.Flow.Printing

/-!
# Reading printed expressions back

The expression rule reads a printed expression back where the rules before the right one leave it
alone. Two do not: the rule for real literals takes the front of an identifier that begins with `nan`
or `inf` in any case, and the optional name of an argument takes `x =` off an argument `x == y`,
after which the call fails. An expression with neither is `Legible`, and only those are read.
-/

namespace EzCpp.Flow.Grammar

open EzCpp.Lib Ast Parser

variable {reals : Reals} {n : Nat} {t : List Char} {rest : List String}

/-! ## What is written, and what is read -/

def PlainPath (path : IdentifierPath) : Prop := ∀ w ∈ path.front :: path.properties, Plain w

/-- The syntax that is printed, with what holds of the words and numbers in it. -/
def Writable : PrimaryExpression → Prop
  | .identifierPath path => PlainPath path
  | .literal l => WritableLiteral l
  | .functionCall call => PlainPath call.path ∧ ∀ a ∈ call.arguments, ∀ name ∈ a.name, Plain name
  | .array _ => True
  | .dictionary elements => ∀ e ∈ elements, Plain e.name
  | .expression _ => True
  | .awaitExpression _ => False
  | .tryExpression _ => False

/-- What an expression begins with that is printed: an `await` and a `try` begin with their keywords. -/
def Begun : PrimaryExpression → Prop
  | .awaitExpression _ => True
  | .tryExpression _ => True
  | p => Writable p

theorem Writable.begun {p : PrimaryExpression} (h : Writable p) : Begun p := by
  cases p with
  | awaitExpression e => trivial
  | tryExpression e => trivial
  | _ => exact h

/-- A word alone. -/
def isWord : PrimaryExpression → Bool
  | .identifierPath ⟨_, properties⟩ => properties.isEmpty
  | .literal (.boolean _) => true
  | _ => false

/-- An expression that begins with a word and `==`. -/
def comparesWord : Expression → Bool
  | .mk ⟨⟨⟨⟨⟨.mk none e, []⟩, []⟩, []⟩, ⟨.eq, _⟩ :: _⟩, _⟩ => isWord e
  | _ => false

def Legible : PrimaryExpression → Prop
  | .identifierPath path => ¬ BeginsReal path.front
  | .functionCall call =>
    ¬ BeginsReal call.path.front ∧ ∀ a ∈ call.arguments, a.name = none → comparesWord a.value = false
  | _ => True

/-! ## The first word of an expression -/

/-- What follows a word at the beginning of an expression. -/
def afterWord : List String := "." :: "(" :: afterUnary

theorem operationsTokens_head {α β : Type} [DecidableEq β] (table : List (String × β))
    (f : α → List String) (terms : List (Operation α β)) (rest : List String) :
    (operationsTokens table f terms ++ rest).head? =
      (terms.head?.map fun o => spelling table o.op).or rest.head? := by
  cases terms with
  | nil => rfl
  | cons o terms => rfl

/-- The tokens of an expression after its first unary expression. -/
def tailTokens : Expression → List String
  | .mk ⟨⟨⟨⟨⟨_, e₁⟩, e₂⟩, e₃⟩, e₄⟩, e₅⟩ =>
    operationsTokens multiplicativeOp unaryTokens e₁ ++
      (operationsTokens additiveOp multiplicativeTokens e₂ ++
      (operationsTokens relationalOp additiveTokens e₃ ++
      (operationsTokens equalityOp relationalTokens e₄ ++
      operationsTokens logicalOp equalityTokens e₅)))

def firstUnary : Expression → UnaryExpression
  | .mk e => e.first.first.first.first.first

theorem firstUnary_mem (e : Expression) : firstUnary e ∈ e.unaries := by
  obtain ⟨logical⟩ := e
  simp only [Expression.unaries, List.mem_flatMap]
  exact ⟨_, List.mem_cons_self, _, List.mem_cons_self, _, List.mem_cons_self, _,
    List.mem_cons_self, List.mem_cons_self⟩

theorem expressionTokens_eq (e : Expression) :
    expressionTokens e = unaryTokens (firstUnary e) ++ tailTokens e := by
  obtain ⟨⟨⟨⟨⟨⟨u, e₁⟩, e₂⟩, e₃⟩, e₄⟩, e₅⟩⟩ := e
  simp only [expressionTokens, logicalTokens_eq, equalityTokens_eq, relationalTokens_eq,
    additiveTokens_eq, multiplicativeTokens_eq, binaryTokens, firstUnary, tailTokens,
    List.append_assoc]

theorem tailTokens_head {F : List String} (hF : Closing F) {e : Expression}
    (hrest : Follows F rest) :
    ∀ w ∈ (tailTokens e ++ rest).head?, w ∈ afterOperand F ∧
      (w = "==" → ∀ p, firstUnary e = .mk none p → comparesWord e = isWord p) := by
  obtain ⟨⟨⟨⟨⟨⟨u, e₁⟩, e₂⟩, e₃⟩, e₄⟩, e₅⟩⟩ := e
  intro w hw
  have hother : ∀ {P : Prop}, w ∈ afterOperand [] ∧ w ≠ "==" →
      w ∈ afterOperand F ∧ (w = "==" → P) :=
    fun h => ⟨mem_afterOperand.mpr (.inr h.1), fun heq => absurd heq h.2⟩
  simp only [tailTokens, List.append_assoc, operationsTokens_head] at hw
  cases e₁ with
  | cons o =>
    have hop : ∀ op, spelling multiplicativeOp op ∈ afterOperand [] ∧
        spelling multiplicativeOp op ≠ "==" := fun op => by cases op <;> decide
    cases hw
    exact hother (hop o.op)
  | nil =>
  cases e₂ with
  | cons o =>
    have hop : ∀ op, spelling additiveOp op ∈ afterOperand [] ∧ spelling additiveOp op ≠ "==" :=
      fun op => by cases op <;> decide
    cases hw
    exact hother (hop o.op)
  | nil =>
  cases e₃ with
  | cons o =>
    have hop : ∀ op, spelling relationalOp op ∈ afterOperand [] ∧ spelling relationalOp op ≠ "==" :=
      fun op => by cases op <;> decide
    cases hw
    exact hother (hop o.op)
  | nil =>
  cases e₄ with
  | cons o =>
    have hop : ∀ op, spelling equalityOp op ∈ afterOperand [] ∧
        (op ≠ .eq → spelling equalityOp op ≠ "==") := fun op => by cases op <;> decide
    obtain ⟨op, _⟩ := o
    cases hw
    by_cases heq : op = .eq
    · subst heq
      refine ⟨mem_afterOperand.mpr (.inr (hop .eq).1), fun _ p hp => ?_⟩
      cases hp
      rfl
    · exact hother ⟨(hop op).1, (hop op).2 heq⟩
  | nil =>
  cases e₅ with
  | cons o =>
    have hop : ∀ op, spelling logicalOp op ∈ afterOperand [] ∧ spelling logicalOp op ≠ "==" :=
      fun op => by cases op <;> decide
    cases hw
    exact hother (hop o.op)
  | nil =>
    have hw := hrest w hw
    exact ⟨mem_afterOperand.mpr (.inl hw), fun heq => absurd heq (hF.ne hw (by decide))⟩

theorem Begins.head {w : String} (ht : Begins t (w :: rest)) (hw : isToken w = true)
    {p : Char → Bool} (hp : w.toList.head?.any p = true) : ∀ c ∈ (skip t).head?, p c = true := by
  intro c hc
  rw [ht.skip_eq hw, List.head?_append_of_ne_nil _ (toList_ne_nil hw)] at hc
  rw [hc] at hp
  exact hp

theorem identifier_symbol {w : String} (ht : Begins t (w :: rest)) (hw : isToken w = true)
    (hs : w.toList.head?.any (fun c => !startsIdentifier c) = true) : identifier t = .fail :=
  identifier_fail fun c hc => by simpa using ht.head hw hs c hc

theorem head_digits_any (m : Nat) (s : String) :
    (toString m ++ s).toList.head?.any (fun c => !startsIdentifier c) = true := by
  cases h : ((toString m).toList ++ s.toList).head? with
  | none => exact absurd (List.head?_eq_none_iff.mp h) (by simp)
  | some c =>
    have hc : c.isDigit = true := head_digits c h
    have hnot : startsIdentifier c = false := by
      by_contra hs
      rw [isDigit_of_starts (by simpa using hs)] at hc
      cases hc
    rw [String.toList_append, h]
    simp [hnot]

theorem spelled_boolean (b : Bool) : Spelled (spelling boolean b) := by
  cases b <;> exact ⟨_, _, rfl, by decide, by decide⟩

theorem unreserved_boolean (b : Bool) : Unreserved (spelling boolean b).toList := by
  have hall : ∀ b : Bool, ∀ kw ∈ keywords, ¬ kw.toList <+: (spelling boolean b).toList := by decide
  exact hall b

/-- A unary expression that begins with a word: a path, a call or a boolean. -/
def startsWord : UnaryExpression → Bool
  | .mk none (.identifierPath _) => true
  | .mk none (.functionCall _) => true
  | .mk none (.literal (.boolean _)) => true
  | _ => false

theorem identifier_unword {u : UnaryExpression} (hp : Begun u.primary) (hu : startsWord u = false)
    (ht : Begins t (unaryTokens u ++ rest)) : identifier t = .fail := by
  obtain ⟨op, p⟩ := u
  cases op with
  | some op =>
    cases op with
    | plus => exact identifier_symbol ht (by decide) (by decide)
    | minus => exact identifier_symbol ht (by decide) (by decide)
    | not => exact identifier_keyword (by decide) ht
  | none =>
    cases p with
    | identifierPath path => cases hu
    | functionCall call => cases hu
    | literal l =>
      have htoken := WritableLiteral.isToken hp
      cases l with
      | boolean b => cases hu
      | integer i =>
        have hhead := head_digits_any i.toInt.toNat ""
        rw [String.append_empty, ← integerToken hp.1] at hhead
        exact identifier_symbol ht htoken hhead
      | real r => exact hp.elim
      | string s => exact identifier_symbol ht htoken (by simp [literalToken, startsIdentifier])
      | duration d => exact identifier_symbol ht htoken (head_digits_any d.count.toNat _)
    | array elements => exact identifier_symbol ht (by decide) (by decide)
    | dictionary elements => exact identifier_symbol ht (by decide) (by decide)
    | expression e => exact identifier_symbol ht (by decide) (by decide)
    | awaitExpression e => exact identifier_keyword (by decide) ht
    | tryExpression e => exact identifier_keyword (by decide) ht

/-- The word an expression begins with, and what follows it. -/
theorem identifier_first {F : List String} (hF : Closing F) {e : Expression}
    (hp : Begun (firstUnary e).primary)
    (hrest : Follows F rest) (ht : Begins t (expressionTokens e ++ rest)) :
    identifier t = .fail ∨ ∃ w toks, identifier t = .ok w (spaced toks) ∧
      Follows ("." :: "(" :: afterOperand F) toks ∧
      (toks.head? = some "==" → comparesWord e = true) := by
  rw [expressionTokens_eq, List.append_assoc] at ht
  have htail := tailTokens_head hF (e := e) hrest
  by_cases hword : startsWord (firstUnary e) = false
  · exact .inl (identifier_unword hp hword ht)
  cases hu : firstUnary e with
  | mk op p =>
  rw [hu] at ht hp htail hword
  -- What follows a word that is the whole first operand.
  have hwhole : ∀ w, identifier t = .ok w (spaced (tailTokens e ++ rest)) → op = none →
      isWord p = true →
      ∃ w toks, identifier t = .ok w (spaced toks) ∧
        Follows ("." :: "(" :: afterOperand F) toks ∧
        (toks.head? = some "==" → comparesWord e = true) := by
    rintro w hw rfl hp
    refine ⟨w, _, hw, fun w hw => ?_, fun h => ?_⟩
    · exact List.mem_cons_of_mem _ (List.mem_cons_of_mem _ (htail w hw).1)
    · rw [(htail _ h).2 rfl p rfl, hp]
  right
  cases op with
  | some op => exact absurd rfl hword
  | none =>
    cases p with
    | identifierPath path =>
      have hfront := (hp _ List.mem_cons_self).identifier_ok ht
      obtain ⟨front, properties⟩ := path
      cases properties with
      | nil => exact hwhole front hfront rfl rfl
      | cons name names =>
        refine ⟨front, _, hfront, fun w hw => ?_, fun h => ?_⟩
        · cases hw
          exact List.mem_cons_self
        · exact absurd (Option.some.inj h) (by decide)
    | literal l =>
      cases l with
      | boolean b =>
        exact hwhole _ (identifier_spaced (spelled_boolean b) (unreserved_boolean b) ht) rfl rfl
      | _ => exact absurd rfl hword
    | functionCall call =>
      obtain ⟨path, arguments⟩ := call
      have hfront := (hp.1 _ List.mem_cons_self).identifier_ok ht
      refine ⟨path.front, _, hfront, ?_⟩
      cases hprop : path.properties with
      | nil =>
        refine ⟨fun w hw => ?_, fun h => absurd (Option.some.inj h) (by decide)⟩
        cases hw
        exact List.mem_cons_of_mem _ List.mem_cons_self
      | cons name names =>
        refine ⟨fun w hw => ?_, fun h => absurd (Option.some.inj h) (by decide)⟩
        cases hw
        exact List.mem_cons_self
    | _ => exact absurd rfl hword

/-! ## Primary expressions -/

theorem WritableLiteral.not_prefix {l : Literal} (h : WritableLiteral l) {s : List Char}
    (hs : s.head?.any startsIdentifier = true)
    (hb : ∀ b, ¬ s <+: (spelling boolean b).toList) : ¬ s <+: (literalToken l).toList := by
  have hhead : ∀ w : String, w.toList.head?.any (fun c => !startsIdentifier c) = true →
      ¬ s <+: w.toList := fun w hw => not_prefix_of_head hs fun c hc => by
    rw [Option.mem_def.mp hc] at hw
    simpa using hw
  cases l with
  | boolean b => exact hb b
  | integer i =>
    have hany := head_digits_any i.toInt.toNat ""
    rw [String.append_empty, ← integerToken h.1] at hany
    exact hhead _ hany
  | real r => exact h.elim
  | string s => exact hhead _ (by simp [literalToken, startsIdentifier])
  | duration d => exact hhead _ (head_digits_any d.count.toNat _)

theorem primaryExpr_literal {expression : Parser Expression} {l : Literal}
    (h : WritableLiteral l) (ht : Begins t (literalToken l :: rest)) :
    primaryExpr reals n expression t = .ok (.literal l) (spaced rest) := by
  have hlit : ∀ w : String, w.toList.head?.any startsIdentifier = true → ' ' ∉ w.toList →
      (∀ b, ¬ w.toList <+: (spelling boolean b).toList) → lit w t = .fail := fun w hw hs hb =>
    ht.lit_fail (fun hnil => by rw [hnil] at hw; cases hw) hs fun w' hw' => by
      cases hw'
      exact ⟨h.isToken, h.not_prefix hw hb⟩
  have hawait : awaitExpression expression t = .fail :=
    awaitExpression_fail (hlit _ (by decide) (by decide) (by decide))
  have htry : tryExpression expression t = .fail :=
    tryExpression_fail (hlit _ (by decide) (by decide) (by decide))
  rw [primaryExpr, firstOf_fail (bind_fail hawait), firstOf_fail (bind_fail htry)]
  exact firstOf_ok (bind_ok (literal_ok h ht))

/-- Nothing else is tried before a call and a path, where a plain word begins. -/
theorem primaryExpr_word {expression : Parser Expression} {w : Identifier} (hw : Plain w)
    (hreal : ¬ BeginsReal w) (ht : Begins t (w :: rest)) :
    primaryExpr reals n expression t = firstOf [
      do let call ← functionCall n expression; return .functionCall call,
      do let path ← identifierPath n; return .identifierPath path,
      do let elements ← array n expression; return .array elements,
      do let elements ← dictionary n expression; return .dictionary elements,
      do let e ← parenthesised expression; return .expression e] t := by
  have hkeyword : ∀ kw ∈ keywords, lit kw t = .fail := fun kw hkw => by
    have hall : ∀ kw ∈ keywords, kw.toList ≠ [] ∧ ' ' ∉ kw.toList := by decide
    refine ht.lit_fail (hall kw hkw).1 (hall kw hkw).2 fun w' hw' => ?_
    cases hw'
    exact ⟨hw.spelled.isToken, hw.keyword kw hkw⟩
  have hliteral : literal reals t = .fail := literal_word_fail (ht.skip_eq hw.spelled.isToken)
    hw.spelled ends_spaced hw.boolean hreal
  rw [primaryExpr, firstOf_fail (bind_fail (awaitExpression_fail (hkeyword _ (by decide)))),
    firstOf_fail (bind_fail (tryExpression_fail (hkeyword _ (by decide)))),
    firstOf_fail (bind_fail hliteral)]

section Parts

variable {m : Nat}

theorem expression_symbol {w : String} (hw : isToken w = true)
    (hs : w.toList.head?.any (fun c => !beginsExpression c) = true) (ht : Begins t (w :: rest)) :
    expression reals m t = .fail :=
  expression_fail m fun c hc => by simpa using ht.head hw hs c hc

theorem assignment_symbol {expression : Parser Expression} {w : String} (hw : isToken w = true)
    (hs : w.toList.head?.any (fun c => !startsIdentifier c) = true) (ht : Begins t (w :: rest)) :
    assignment expression t = .fail :=
  bind_fail (identifier_symbol ht hw hs)

theorem functionArgument_symbol {w : String} (hw : isToken w = true)
    (hs : w.toList.head?.any (fun c => !startsIdentifier c) = true)
    (he : w.toList.head?.any (fun c => !beginsExpression c) = true) (ht : Begins t (w :: rest)) :
    functionArgument (expression reals m) t = .fail :=
  (bind_ok (option_fail (bind_fail (identifier_symbol ht hw hs)))).trans
    (bind_fail (expression_symbol hw he ht))

theorem reads_assignment {expression : Parser Expression} {a : Assignment Expression}
    (hname : Plain a.name)
    (hvalue : Reads expression a.value (expressionTokens a.value) closers) :
    Reads (assignment expression) a (assignmentTokens a) closers := fun _ _ hrest ht =>
  (bind_ok (hname.identifier_ok ht)).trans ((bind_ok (begins_spaced.lit_ok (by decide))).trans
    (bind_ok (hvalue _ _ hrest begins_spaced)))

/-- The `=` of a name, where an expression stands. -/
theorem equals_fail {toks : List String} (hfollows : Follows afterWord toks)
    (hne : toks.head? ≠ some "==") : lit "=" (spaced toks) = .fail := by
  have hall : ∀ w ∈ afterWord, isToken w = true ∧ (w ≠ "==" → ¬ "=".toList <+: w.toList) := by
    decide
  refine begins_spaced.lit_fail (by decide) (by decide) fun w hw => ?_
  obtain ⟨htoken, hnot⟩ := hall w (hfollows w hw)
  exact ⟨htoken, hnot fun heq => hne (heq ▸ hw)⟩

theorem reads_argument {expression : Parser Expression} {a : FunctionArgument Expression}
    (hname : ∀ name ∈ a.name, Plain name)
    (hcompares : a.name = none → comparesWord a.value = false)
    (hfirst : Begun (firstUnary a.value).primary)
    (hvalue : Reads expression a.value (expressionTokens a.value) closers) :
    Reads (functionArgument expression) a (argumentTokens a) closers := by
  intro t rest hrest ht
  obtain ⟨name, value⟩ := a
  cases name with
  | some name =>
    have hoption : option (do let name ← identifier; lit "="; return name) t =
        .ok (some name) (spaced (expressionTokens value ++ rest)) :=
      option_ok ((bind_ok ((hname name rfl).identifier_ok ht)).trans
        (bind_ok (begins_spaced.lit_ok (by decide))))
    exact (bind_ok hoption).trans (bind_ok (hvalue _ _ hrest begins_spaced))
  | none =>
    have hoption : option (do let name ← identifier; lit "="; return name) t = .ok none t := by
      refine option_fail ?_
      rcases identifier_first (F := closers) (by decide) hfirst hrest ht with hid | ⟨w, toks, hid, hfollows, heq⟩
      · exact bind_fail hid
      · refine (bind_ok hid).trans (bind_fail (equals_fail hfollows fun h => ?_))
        have := hcompares rfl
        rw [heq h] at this
        cases this
    exact (bind_ok hoption).trans (bind_ok (hvalue _ _ hrest ht))

/-- No expression follows the first `=` of `==`. -/
theorem equals_expression_fail {α : Type} {G toks : List String} {k : Expression → Parser α}
    (hG : ∀ w ∈ G, isToken w = true ∧ (w ≠ "==" → ¬ "=".toList <+: w.toList))
    (hfollows : Follows G toks) :
    (do lit "="; let value ← expression reals m; k value : Parser α) (spaced toks) = .fail := by
  by_cases hhead : toks.head? = some "=="
  · obtain ⟨toks, rfl⟩ : ∃ ts, toks = "==" :: ts := by
      cases toks with
      | nil => cases hhead
      | cons w ts => exact ⟨ts, by rw [Option.some.inj hhead]⟩
    have hequals : lit "=" (spaced ("==" :: toks)) = .ok () ('=' :: spaced toks) :=
      Grammar.lit_ok (begins_spaced.skip_eq (w := "==") (by decide))
    have hsolid : skip ('=' :: spaced toks) = '=' :: spaced toks :=
      skip_of_solid (solid_of_ne (by decide) (by decide))
    have hvalue : expression reals m ('=' :: spaced toks) = .fail :=
      expression_fail m fun c hc => by
        rw [hsolid] at hc
        cases hc
        decide
    exact (bind_ok hequals).trans (bind_fail hvalue)
  · refine bind_fail (begins_spaced.lit_fail (by decide) (by decide) fun w hw => ?_)
    exact ⟨(hG w (hfollows w hw)).1, (hG w (hfollows w hw)).2 fun heq => hhead (heq ▸ hw)⟩

/-- What stands in parentheses is no dictionary. -/
theorem dictionary_expression {e : Expression} (hfirst : Begun (firstUnary e).primary)
    (he : Reads (expression reals m) e (expressionTokens e) closers)
    (ht : Begins t ("(" :: (expressionTokens e ++ ")" :: rest))) :
    dictionary n (expression reals m) t = .fail := by
  have hclose : Follows closers (")" :: rest) := fun w hw => by
    cases hw
    decide
  have hassignment : assignment (expression reals m)
      (spaced (expressionTokens e ++ ")" :: rest)) = .fail := by
    have hall : ∀ w ∈ afterWord, isToken w = true ∧ (w ≠ "==" → ¬ "=".toList <+: w.toList) := by decide
    rcases identifier_first (F := closers) (by decide) hfirst hclose begins_spaced with
      hid | ⟨w, toks, hid, hfollows, -⟩
    · exact bind_fail hid
    · exact (bind_ok hid).trans (equals_expression_fail hall hfollows)
  have hlit : lit ")" (spaced (expressionTokens e ++ ")" :: rest)) = .fail := by
    refine Grammar.lit_fail fun hp => ?_
    have hfail : expression reals m (spaced (expressionTokens e ++ ")" :: rest)) = .fail :=
      expression_fail m fun c hc => by
        obtain ⟨r, hr⟩ := hp
        rw [← hr] at hc
        cases hc
        decide
    rw [he _ _ hclose begins_spaced] at hfail
    cases hfail
  exact (bind_ok (ht.lit_ok (by decide))).trans
    ((bind_ok (option_fail (bind_fail hassignment))).trans (bind_fail hlit))

theorem length_le_commas (xs : List (List String)) : xs.length ≤ (commas xs).length + 1 := by
  cases xs with
  | nil => exact Nat.zero_le _
  | cons x xs =>
    have hmore : xs.length ≤ (xs.flatMap fun toks => "," :: toks).length := by
      induction xs with
      | nil => exact Nat.le_refl _
      | cons y ys ih =>
        rw [List.flatMap_cons, List.length_append, List.length_cons, List.length_cons]
        omega
    rw [commas, List.length_append, List.length_cons]
    omega

theorem mem_length_le_commas {xs : List (List String)} {x : List String} (hx : x ∈ xs) :
    x.length ≤ (commas xs).length := by
  cases xs with
  | nil => cases hx
  | cons y ys =>
    rw [commas, List.length_append]
    rcases List.mem_cons.mp hx with rfl | hx
    · exact Nat.le_add_right _ _
    · have hsub : ("," :: x) <:+: ys.flatMap fun toks => "," :: toks := by
        rw [List.flatMap_def]
        exact List.infix_of_mem_flatten (List.mem_map_of_mem hx)
      have := hsub.length_le
      rw [List.length_cons] at this
      omega

theorem length_pathTokens (path : IdentifierPath) :
    (pathTokens path).length = 2 * path.properties.length + 1 := by
  have hmore : ∀ names : List Identifier,
      (names.flatMap fun name => [".", name]).length = 2 * names.length := by
    intro names
    induction names with
    | nil => rfl
    | cons name names ih =>
      rw [List.flatMap_cons, List.length_append, ih, List.length_cons]
      simp only [List.length_cons, List.length_nil]
      omega
  rw [pathTokens, List.length_cons, hmore]

theorem reads_identifierPath {F : List String} (hF : Closing F) {path : IdentifierPath} (hw : Writable (.identifierPath path))
    (hl : Legible (.identifierPath path))
    (hlen : (primaryTokens (.identifierPath path)).length ≤ n + 1) :
    Reads (primaryExpr reals n (expression reals n)) (.identifierPath path)
      (primaryTokens (.identifierPath path)) (afterOperand F) := by
  intro t rest hrest ht
  have hpath : identifierPath n t = .ok path (spaced rest) :=
    reads_path hw (by
      rw [primaryTokens, length_pathTokens] at hlen
      omega) (fun w hw => ⟨(hF.operand w hw).1, (hF.operand w hw).2 _ (by decide)⟩) t rest
      hrest ht
  have hopen : lit "(" (spaced rest) = .fail := by
    refine begins_spaced.lit_fail (by decide) (by decide) fun w hw => ?_
    exact ⟨(hF.operand w (hrest w hw)).1, (hF.operand w (hrest w hw)).2 _ (by decide)⟩
  have hcall : functionCall n (expression reals n) t = .fail :=
    (bind_ok hpath).trans (bind_fail hopen)
  rw [primaryExpr_word (hw _ List.mem_cons_self) hl ht, firstOf_fail (bind_fail hcall)]
  exact firstOf_ok (bind_ok hpath)

theorem reads_call {F : List String} {call : FunctionCall} (hw : Writable (.functionCall call))
    (hl : Legible (.functionCall call))
    (hlen : (primaryTokens (.functionCall call)).length ≤ n + 1)
    (hfirst : ∀ c ∈ PrimaryExpression.children (.functionCall call), Begun (firstUnary c).primary)
    (hchild : ∀ c ∈ PrimaryExpression.children (.functionCall call), (expressionTokens c).length ≤ n →
      Reads (expression reals n) c (expressionTokens c) closers) :
    Reads (primaryExpr reals n (expression reals n)) (.functionCall call)
      (primaryTokens (.functionCall call)) F := by
  intro t rest hrest ht
  obtain ⟨path, arguments⟩ := call
  rw [primaryTokens, argumentsTokens_eq] at ht hlen
  simp only [List.append_assoc, List.cons_append, List.nil_append, List.length_append,
    List.length_cons, List.length_nil, length_pathTokens] at ht hlen
  have hargs := length_le_commas (arguments.map argumentTokens)
  rw [List.length_map] at hargs
  have hnargs : arguments.length ≤ n := by omega
  have hnproperties : path.properties.length ≤ n := by omega
  have hpath : identifierPath n t = .ok path
      (spaced ("(" :: (commas (arguments.map argumentTokens) ++ ")" :: rest))) :=
    reads_path (F := ["("]) hw.1 hnproperties (by decide) t _ (fun w hw => by cases hw; simp) ht
  have hread : ∀ a ∈ arguments,
      Reads (functionArgument (expression reals n)) a (argumentTokens a) [",", ")"] := by
    intro a ha
    have hmem : a.value ∈ PrimaryExpression.children (.functionCall ⟨path, arguments⟩) :=
      List.mem_map_of_mem ha
    have hle : (expressionTokens a.value).length ≤ n := by
      have hcommas := mem_length_le_commas (List.mem_map_of_mem (f := argumentTokens) ha)
      have hvalue : (expressionTokens a.value).length ≤ (argumentTokens a).length := by
        unfold argumentTokens
        split
        next => exact (Nat.le_add_right _ 2)
        next => exact Nat.le_refl _
      omega
    exact (reads_argument (hw.2 a ha) (hl.2 a ha) (hfirst _ hmem) (hchild _ hmem hle)).mono
      (by decide)
  have hcall : functionCall n (expression reals n) t = .ok ⟨path, arguments⟩ (spaced rest) :=
    (bind_ok hpath).trans ((bind_ok (begins_spaced.lit_ok (by decide))).trans
      (enclosed_ok (k := fun es => pure (FunctionCallOf.mk path es)) (by decide) (by decide) hread
        (fun t rest ht =>
          functionArgument_symbol (w := ")") (by decide) (by decide) (by decide) ht)
        hnargs begins_spaced))
  rw [primaryExpr_word (hw.1 _ List.mem_cons_self) hl.1 ht]
  exact firstOf_ok (bind_ok hcall)

theorem reads_elements {F : List String} {elements : List Expression}
    (hlen : (primaryTokens (.array elements)).length ≤ n + 1)
    (hchild : ∀ c ∈ PrimaryExpression.children (.array elements), (expressionTokens c).length ≤ n →
      Reads (expression reals n) c (expressionTokens c) closers) :
    Reads (primaryExpr reals n (expression reals n)) (.array elements)
      (primaryTokens (.array elements)) F := by
  intro t rest hrest ht
  rw [primaryTokens, elementsTokens_eq] at ht hlen
  simp only [List.append_assoc, List.cons_append, List.length_append, List.length_cons] at ht hlen
  have hargs := length_le_commas (elements.map expressionTokens)
  rw [List.length_map] at hargs
  have hnelements : elements.length ≤ n := by omega
  have hread : ∀ e ∈ elements,
      Reads (expression reals n) e (expressionTokens e) [",", "]"] := fun e he => by
    have hcommas := mem_length_le_commas (List.mem_map_of_mem (f := expressionTokens) he)
    exact (hchild e he (by omega)).mono (by decide)
  have harray : array n (expression reals n) t = .ok elements (spaced rest) :=
    (bind_ok (ht.lit_ok (by decide))).trans (enclosed_ok (k := pure) (by decide) (by decide) hread
      (fun t rest ht => expression_symbol (w := "]") (by decide) (by decide) ht) hnelements
      begins_spaced)
  rw [primaryExpr_symbol fun c hc => by
    simpa using ht.head (p := fun c => !beginsLiteral c) (by decide) (by decide) c hc]
  exact firstOf_ok (bind_ok harray)

theorem reads_entries {F : List String} {elements : List (Assignment Expression)}
    (hw : Writable (.dictionary elements))
    (hlen : (primaryTokens (.dictionary elements)).length ≤ n + 1)
    (hchild : ∀ c ∈ PrimaryExpression.children (.dictionary elements), (expressionTokens c).length ≤ n →
      Reads (expression reals n) c (expressionTokens c) closers) :
    Reads (primaryExpr reals n (expression reals n)) (.dictionary elements)
      (primaryTokens (.dictionary elements)) F := by
  intro t rest hrest ht
  rw [primaryTokens, assignmentsTokens_eq] at ht hlen
  simp only [List.append_assoc, List.cons_append, List.length_append, List.length_cons] at ht hlen
  have hargs := length_le_commas (elements.map assignmentTokens)
  rw [List.length_map] at hargs
  have hnelements : elements.length ≤ n := by omega
  have hread : ∀ e ∈ elements,
      Reads (assignment (expression reals n)) e (assignmentTokens e) [",", ")"] := fun e he => by
    have hcommas := mem_length_le_commas (List.mem_map_of_mem (f := assignmentTokens) he)
    simp only [assignmentTokens, List.length_cons] at hcommas
    exact (reads_assignment (hw e he) (hchild _ (List.mem_map_of_mem he) (by omega))).mono
      (by decide)
  have hdictionary : dictionary n (expression reals n) t = .ok elements (spaced rest) :=
    (bind_ok (ht.lit_ok (by decide))).trans (enclosed_ok (k := pure) (by decide) (by decide) hread
      (fun t rest ht => assignment_symbol (w := ")") (by decide) (by decide) ht) hnelements
      begins_spaced)
  have harray : array n (expression reals n) t = .fail :=
    array_fail (ht.lit_fail (by decide) (by decide) fun w hw => by cases hw; decide)
  rw [primaryExpr_symbol fun c hc => by
    simpa using ht.head (p := fun c => !beginsLiteral c) (by decide) (by decide) c hc,
    firstOf_fail (bind_fail harray)]
  exact firstOf_ok (bind_ok hdictionary)

theorem reads_parentheses {F : List String} {e : Expression}
    (hlen : (primaryTokens (.expression e)).length ≤ n + 1)
    (hfirst : ∀ c ∈ PrimaryExpression.children (.expression e), Begun (firstUnary c).primary)
    (hchild : ∀ c ∈ PrimaryExpression.children (.expression e), (expressionTokens c).length ≤ n →
      Reads (expression reals n) c (expressionTokens c) closers) :
    Reads (primaryExpr reals n (expression reals n)) (.expression e)
      (primaryTokens (.expression e)) F := by
  intro t rest hrest ht
  rw [primaryTokens] at ht hlen
  simp only [List.append_assoc, List.cons_append, List.length_append, List.length_cons,
    List.nil_append] at ht hlen
  have he : Reads (expression reals n) e (expressionTokens e) closers :=
    hchild e List.mem_cons_self (by omega)
  have hclose : Follows closers (")" :: rest) := fun w hw => by
    cases hw
    decide
  have harray : array n (expression reals n) t = .fail :=
    array_fail (ht.lit_fail (by decide) (by decide) fun w hw => by cases hw; decide)
  have hdictionary : dictionary n (expression reals n) t = .fail :=
    dictionary_expression (hfirst e List.mem_cons_self) he ht
  have hparen : parenthesised (expression reals n) t = .ok e (spaced rest) :=
    (bind_ok (ht.lit_ok (by decide))).trans
      ((bind_ok (expect_ok (he _ _ hclose begins_spaced))).trans
        (bind_ok (expect_ok (begins_spaced.lit_ok (by decide)))))
  rw [primaryExpr_symbol fun c hc => by
    simpa using ht.head (p := fun c => !beginsLiteral c) (by decide) (by decide) c hc,
    firstOf_fail (bind_fail harray), firstOf_fail (bind_fail hdictionary)]
  exact firstOf_ok (bind_ok hparen)

/-- A primary expression is read when the expressions in it are. -/
theorem reads_primary {F : List String} (hF : Closing F) {p : PrimaryExpression} (hw : Writable p)
    (hl : Legible p)
    (hlen : (primaryTokens p).length ≤ n + 1)
    (hfirst : ∀ c ∈ p.children, Begun (firstUnary c).primary)
    (hchild : ∀ c ∈ p.children, (expressionTokens c).length ≤ n →
      Reads (expression reals n) c (expressionTokens c) closers) :
    Reads (primaryExpr reals n (expression reals n)) p (primaryTokens p) (afterOperand F) := by
  cases p with
  | literal l => exact fun t rest _ ht => primaryExpr_literal hw ht
  | identifierPath path => exact reads_identifierPath hF hw hl hlen
  | functionCall call => exact reads_call hw hl hlen hfirst hchild
  | array elements => exact reads_elements hlen hchild
  | dictionary elements => exact reads_entries hw hlen hchild
  | expression e => exact reads_parentheses hlen hfirst hchild
  | awaitExpression e => exact hw.elim
  | tryExpression e => exact hw.elim

/-- No primary expression that is read begins with a unary operator. -/
theorem unaryOp_fail {p : PrimaryExpression} (hw : Begun p)
    (ht : Begins t (primaryTokens p ++ rest)) : symbol unaryOp t = .fail := by
  have hfail : ∀ w ws, primaryTokens p ++ rest = w :: ws → isToken w = true →
      (∀ e ∈ unaryOp, ¬ e.1.toList <+: w.toList) → symbol unaryOp t = .fail :=
    fun w ws heq htoken hnot => operators_unary.symbol_fail (heq ▸ ht) fun w' hw' => by
      cases hw'
      exact ⟨htoken, hnot⟩
  have hplain : ∀ w, Plain w → ∀ e ∈ unaryOp, ¬ e.1.toList <+: w.toList := fun w hw e he => by
    have hall : ∀ e ∈ unaryOp, e.1 ∈ keywords ∨
        e.1.toList.head?.any (fun c => !startsIdentifier c) = true := by decide
    rcases hall e he with hkw | hhead
    · exact hw.keyword _ hkw
    · exact hw.spelled.not_prefix hhead
  cases p with
  | literal l =>
    refine hfail _ _ rfl (WritableLiteral.isToken hw) fun e he => ?_
    cases l with
    | boolean b => revert e; cases b <;> decide
    | integer i =>
      have hd := head_digits (m := i.toInt.toNat) (r := [])
      rw [List.append_nil, ← integerToken hw.1] at hd
      exact not_prefix_of_head (p := fun c => !c.isDigit) (by revert e; decide) fun c hc => by
        rw [hd c hc]
        rfl
    | real r => exact hw.elim
    | string s =>
      refine not_prefix_of_head (p := fun c => c ≠ '\'') (by revert e; decide) fun c hc => ?_
      simp only [literalToken, String.toList_append] at hc
      cases hc
      rfl
    | duration d =>
      have hd := head_digits (m := d.count.toNat) (r := (spelling durationUnit d.unit).toList)
      rw [← String.toList_append] at hd
      exact not_prefix_of_head (p := fun c => !c.isDigit) (by revert e; decide) fun c hc => by
        rw [hd c hc]
        rfl
  | identifierPath path =>
    have hfront := hw _ List.mem_cons_self
    exact hfail _ _ rfl hfront.spelled.isToken (hplain _ hfront)
  | functionCall call =>
    have hfront := hw.1 _ List.mem_cons_self
    exact hfail _ _ rfl hfront.spelled.isToken (hplain _ hfront)
  | array elements => exact hfail _ _ rfl (by decide) (by decide)
  | dictionary elements => exact hfail _ _ rfl (by decide) (by decide)
  | expression e => exact hfail _ _ rfl (by decide) (by decide)
  | awaitExpression e => exact hfail _ _ rfl (by decide) (by decide)
  | tryExpression e => exact hfail _ _ rfl (by decide) (by decide)

theorem reads_unary {F : List String} {u : UnaryExpression} (hw : Begun u.primary)
    (hprimary : Reads (primaryExpr reals n (expression reals n)) u.primary
      (primaryTokens u.primary) F) :
    Reads (unaryExpr reals n (expression reals n)) u (unaryTokens u) F := by
  intro t rest hrest ht
  obtain ⟨op, p⟩ := u
  cases op with
  | some op =>
    have hop : symbol unaryOp t = .ok op (spaced (primaryTokens p ++ rest)) :=
      operators_unary.symbol_ok ht
    exact (bind_ok (option_ok hop)).trans (bind_ok (hprimary _ _ hrest begins_spaced))
  | none =>
    exact (bind_ok (option_fail (unaryOp_fail hw ht))).trans (bind_ok (hprimary _ _ hrest ht))

end Parts

/-! ## Expressions -/

theorem length_primaryTokens_le (u : UnaryExpression) :
    (primaryTokens u.primary).length ≤ (unaryTokens u).length := by
  obtain ⟨op, p⟩ := u
  cases op with
  | none => exact Nat.le_refl _
  | some op => exact Nat.le_succ _

theorem reads_operand {F : List String} (hF : Closing F) {u : UnaryExpression} (hw : Writable u.primary)
    (hl : Legible u.primary) (hlen : (unaryTokens u).length ≤ n + 1)
    (hchild : ∀ c ∈ u.primary.children, Begun (firstUnary c).primary ∧
      ((expressionTokens c).length ≤ n →
        Reads (expression reals n) c (expressionTokens c) closers)) :
    Reads (unaryExpr reals n (expression reals n)) u (unaryTokens u) (afterOperand F) :=
  reads_unary hw.begun (reads_primary hF hw hl ((length_primaryTokens_le u).trans hlen)
    (fun c hc => (hchild c hc).1) fun c hc => (hchild c hc).2)

/-- Whatever is legible is read, up to what can follow it. -/
theorem reads_expression (e : Expression) (hlen : (expressionTokens e).length ≤ n)
    (hw : ∀ p, Occurs p e → Writable p) (hl : ∀ p, Occurs p e → Legible p) :
    Reads (expression reals n) e (expressionTokens e) closers := by
  induction n generalizing e with
  | zero =>
    exact absurd (List.length_eq_zero_iff.mp (Nat.le_zero.mp hlen)) (expressionTokens_ne_nil e)
  | succ n ih =>
    have hclosers : Closing closers := by decide
    have hunary : ∀ u ∈ e.unaries, (unaryTokens u).length ≤ n + 1 →
        Reads (unaryExpr reals n (expression reals n)) u (unaryTokens u) (afterOperand closers) := by
      intro u hu hulen
      refine reads_operand hclosers (hw _ (.here hu rfl)) (hl _ (.here hu rfl)) hulen fun c hc =>
        ⟨?_, fun hclen => ?_⟩
      · exact (hw _ (.within hu hc (.here (firstUnary_mem c) rfl))).begun
      · exact ih c hclen (fun p hp => hw p (.within hu hc hp)) fun p hp => hl p (.within hu hc hp)
    exact reads_layers hclosers hlen (fun u hu => hunary u (List.dropLast_subset _ hu)) fun u hu hulen =>
      (hunary u (List.mem_of_getLast? hu) hulen).mono fun w hw => mem_afterOperand.mpr (.inl hw)

/-! ## Printed texts -/

theorem spaced_intercalate (w : String) (toks : List String) :
    ' ' :: (" ".intercalate (w :: toks)).toList = spaced (w :: toks) := by
  induction toks generalizing w with
  | nil => simp [spaced]
  | cons w' toks ih =>
    rw [String.intercalate_cons_cons, String.toList_append, String.toList_append]
    show ' ' :: (w.toList ++ [' '] ++ _) = ' ' :: (w.toList ++ spaced (w' :: toks))
    rw [← ih w', List.append_assoc]
    rfl

theorem length_le_spaced (toks : List String) : toks.length ≤ (spaced toks).length := by
  induction toks with
  | nil => exact Nat.le_refl _
  | cons w toks ih =>
    show toks.length + 1 ≤ (' ' :: (w.toList ++ spaced toks)).length
    rw [List.length_cons, List.length_append]
    omega

/-- The expression rule reads a printed expression that is legible, and all of it. -/
theorem parseUsing_printed {e : Expression} (hw : ∀ p, Occurs p e → Writable p)
    (hl : ∀ p, Occurs p e → Legible p) :
    parseUsing (expression reals) (printed e) = some e := by
  obtain ⟨w, toks, htoks⟩ := List.exists_cons_of_ne_nil (expressionTokens_ne_nil e)
  have htext : ' ' :: (printed e).toList = spaced (expressionTokens e) := by
    rw [printed, htoks, spaced_intercalate]
  have hlen : (expressionTokens e).length ≤ (printed e).toList.length + 1 := by
    have := length_le_spaced (expressionTokens e)
    rwa [← htext] at this
  have hbegins : Begins (printed e).toList (expressionTokens e ++ []) := by
    rw [Begins, List.append_nil, ← htext, skip_blank]
  have hread : expression reals ((printed e).toList.length + 1) (printed e).toList = .ok e [] :=
    reads_expression e hlen hw hl _ [] nofun hbegins
  rw [parseUsing, hread]
  rfl

end EzCpp.Flow.Grammar
