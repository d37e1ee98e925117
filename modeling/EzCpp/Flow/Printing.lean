import EzCpp.Flow.Tokens

/-!
# Printing expressions

The tokens of an expression, and the text that has them with a blank between two. A rule reads a
syntax tree where it takes the tokens of the tree off any text that goes on with a token of some
set. The sets grow from layer to layer of binary expressions, since what follows an operand is what
follows the whole expression or an operator of one of the layers around it.
-/

namespace EzCpp.Flow.Ast

/-! ## The parts of an expression -/

def BinaryExpression.operands {Term Operator : Type} (e : BinaryExpression Term Operator) :
    List Term :=
  e.first :: e.terms.map Operation.term

def UnaryExpression.primary : UnaryExpression → PrimaryExpression
  | .mk _ e => e

/-- The operands of all the layers. -/
def Expression.unaries : Expression → List UnaryExpression
  | .mk logical => logical.operands.flatMap fun e => e.operands.flatMap fun e =>
      e.operands.flatMap fun e => e.operands.flatMap fun e => e.operands

def PrimaryExpression.children : PrimaryExpression → List Expression
  | .identifierPath _ => []
  | .literal _ => []
  | .functionCall call => call.arguments.map FunctionArgument.value
  | .array elements => elements
  | .dictionary elements => elements.map Assignment.value
  | .expression e => [e]
  | .awaitExpression e => [e.expression, e.duration]
  | .tryExpression e => [e]

/-- `p` stands somewhere in an expression. -/
inductive Occurs (p : PrimaryExpression) : Expression → Prop
  | here {e : Expression} {u : UnaryExpression} (hu : u ∈ e.unaries) (hp : u.primary = p) :
    Occurs p e
  | within {e : Expression} {u : UnaryExpression} {child : Expression} (hu : u ∈ e.unaries)
    (hc : child ∈ u.primary.children) (h : Occurs p child) : Occurs p e

end EzCpp.Flow.Ast

namespace EzCpp.Flow.Grammar

open EzCpp.Lib Ast Parser

variable {α β : Type}

/-! ## Tokens -/

/-- The entry of a symbol table for `a`. -/
def spelling [DecidableEq α] (table : List (String × α)) (a : α) : String :=
  ((table.find? fun e => e.2 = a).map Prod.fst).getD ""

def commas : List (List String) → List String
  | [] => []
  | toks :: rest => toks ++ rest.flatMap fun toks => "," :: toks

def pathTokens (path : IdentifierPath) : List String :=
  path.front :: path.properties.flatMap fun name => [".", name]

/-- Strings are printed in single quotes. -/
def literalToken : Literal → String
  | .boolean b => spelling boolean b
  | .integer i => toString i
  | .real r => toString r
  | .string s => "'" ++ s ++ "'"
  | .duration d => toString d.count ++ spelling durationUnit d.unit

mutual

def primaryTokens : PrimaryExpression → List String
  | .identifierPath path => pathTokens path
  | .literal l => [literalToken l]
  | .functionCall ⟨path, arguments⟩ =>
    pathTokens path ++ "(" :: (commas (argumentsTokens arguments) ++ [")"])
  | .array elements => "[" :: (commas (elementsTokens elements) ++ ["]"])
  | .dictionary elements => "(" :: (commas (assignmentsTokens elements) ++ [")"])
  | .expression e => "(" :: (expressionTokens e ++ [")"])
  | .awaitExpression ⟨e, duration⟩ =>
    "await" :: (expressionTokens e ++ "for" :: expressionTokens duration)
  | .tryExpression e => "try" :: expressionTokens e

def elementsTokens : List Expression → List (List String)
  | [] => []
  | e :: es => expressionTokens e :: elementsTokens es

def assignmentsTokens : List (Assignment Expression) → List (List String)
  | [] => []
  | ⟨name, value⟩ :: es => (name :: "=" :: expressionTokens value) :: assignmentsTokens es

def argumentsTokens : List (FunctionArgument Expression) → List (List String)
  | [] => []
  | ⟨some name, value⟩ :: es => (name :: "=" :: expressionTokens value) :: argumentsTokens es
  | ⟨none, value⟩ :: es => expressionTokens value :: argumentsTokens es

def unaryTokens : UnaryExpression → List String
  | .mk (some op) e => spelling unaryOp op :: primaryTokens e
  | .mk none e => primaryTokens e

def multiplicativeTokens : MultiplicativeExpression → List String
  | ⟨first, terms⟩ => unaryTokens first ++ multiplicativeTermsTokens terms

def multiplicativeTermsTokens :
    List (Operation UnaryExpression MultiplicativeOperator) → List String
  | [] => []
  | ⟨op, term⟩ :: terms =>
    spelling multiplicativeOp op :: (unaryTokens term ++ multiplicativeTermsTokens terms)

def additiveTokens : AdditiveExpression → List String
  | ⟨first, terms⟩ => multiplicativeTokens first ++ additiveTermsTokens terms

def additiveTermsTokens : List (Operation MultiplicativeExpression AdditiveOperator) → List String
  | [] => []
  | ⟨op, term⟩ :: terms =>
    spelling additiveOp op :: (multiplicativeTokens term ++ additiveTermsTokens terms)

def relationalTokens : RelationalExpression → List String
  | ⟨first, terms⟩ => additiveTokens first ++ relationalTermsTokens terms

def relationalTermsTokens : List (Operation AdditiveExpression RelationalOperator) → List String
  | [] => []
  | ⟨op, term⟩ :: terms =>
    spelling relationalOp op :: (additiveTokens term ++ relationalTermsTokens terms)

def equalityTokens : EqualityExpression → List String
  | ⟨first, terms⟩ => relationalTokens first ++ equalityTermsTokens terms

def equalityTermsTokens : List (Operation RelationalExpression EqualityOperator) → List String
  | [] => []
  | ⟨op, term⟩ :: terms =>
    spelling equalityOp op :: (relationalTokens term ++ equalityTermsTokens terms)

def logicalTokens : LogicalExpression → List String
  | ⟨first, terms⟩ => equalityTokens first ++ logicalTermsTokens terms

def logicalTermsTokens : List (Operation EqualityExpression LogicalOperator) → List String
  | [] => []
  | ⟨op, term⟩ :: terms =>
    spelling logicalOp op :: (equalityTokens term ++ logicalTermsTokens terms)

def expressionTokens : Expression → List String
  | .mk logical => logicalTokens logical

end

/-- An expression as it is printed, with one blank between two tokens. -/
def printed (e : Expression) : String := " ".intercalate (expressionTokens e)

/-! The layers are one function of their operators and their operands. -/

def operationsTokens [DecidableEq β] (table : List (String × β)) (tokens : α → List String)
    (terms : List (Operation α β)) : List String :=
  terms.flatMap fun o => spelling table o.op :: tokens o.term

def binaryTokens [DecidableEq β] (table : List (String × β)) (tokens : α → List String)
    (e : BinaryExpression α β) : List String :=
  tokens e.first ++ operationsTokens table tokens e.terms

theorem eq_operationsTokens [DecidableEq β] {table : List (String × β)} {tokens : α → List String}
    {f : List (Operation α β) → List String} (hnil : f [] = [])
    (hcons : ∀ op term terms, f (⟨op, term⟩ :: terms) = spelling table op :: (tokens term ++ f terms))
    (terms : List (Operation α β)) : f terms = operationsTokens table tokens terms := by
  induction terms with
  | nil => exact hnil
  | cons o terms ih => rw [hcons, ih]; rfl

theorem multiplicativeTokens_eq (e : MultiplicativeExpression) :
    multiplicativeTokens e = binaryTokens multiplicativeOp unaryTokens e := by
  rw [multiplicativeTokens, eq_operationsTokens multiplicativeTermsTokens.eq_1
    multiplicativeTermsTokens.eq_2]
  rfl

theorem additiveTokens_eq (e : AdditiveExpression) :
    additiveTokens e = binaryTokens additiveOp multiplicativeTokens e := by
  rw [additiveTokens, eq_operationsTokens additiveTermsTokens.eq_1 additiveTermsTokens.eq_2]
  rfl

theorem relationalTokens_eq (e : RelationalExpression) :
    relationalTokens e = binaryTokens relationalOp additiveTokens e := by
  rw [relationalTokens, eq_operationsTokens relationalTermsTokens.eq_1 relationalTermsTokens.eq_2]
  rfl

theorem equalityTokens_eq (e : EqualityExpression) :
    equalityTokens e = binaryTokens equalityOp relationalTokens e := by
  rw [equalityTokens, eq_operationsTokens equalityTermsTokens.eq_1 equalityTermsTokens.eq_2]
  rfl

theorem logicalTokens_eq (e : LogicalExpression) :
    logicalTokens e = binaryTokens logicalOp equalityTokens e := by
  rw [logicalTokens, eq_operationsTokens logicalTermsTokens.eq_1 logicalTermsTokens.eq_2]
  rfl

theorem elementsTokens_eq (es : List Expression) :
    elementsTokens es = es.map expressionTokens := by
  induction es with
  | nil => rfl
  | cons e es ih => rw [elementsTokens, ih]; rfl

def assignmentTokens (a : Assignment Expression) : List String :=
  a.name :: "=" :: expressionTokens a.value

theorem assignmentsTokens_eq (es : List (Assignment Expression)) :
    assignmentsTokens es = es.map assignmentTokens := by
  induction es with
  | nil => rfl
  | cons e es ih => rw [assignmentsTokens, ih]; rfl

def argumentTokens (a : FunctionArgument Expression) : List String :=
  match a.name with
  | some name => name :: "=" :: expressionTokens a.value
  | none => expressionTokens a.value

theorem argumentsTokens_eq (es : List (FunctionArgument Expression)) :
    argumentsTokens es = es.map argumentTokens := by
  induction es with
  | nil => rfl
  | cons e es ih =>
    obtain ⟨name, value⟩ := e
    cases name with
    | none => rw [argumentsTokens, ih]; rfl
    | some name => rw [argumentsTokens, ih]; rfl

/-! ## Texts of tokens -/

/-- The tokens, with a blank before each. -/
def spaced (toks : List String) : List Char := toks.flatMap fun w => ' ' :: w.toList

/-- The tokens of a text, up to the blanks before the first. -/
def Begins (t : List Char) (toks : List String) : Prop := skip t = skip (spaced toks)

/-- What a blank sets apart: no blank and no comment begins in it. -/
def isToken (w : String) : Bool :=
  match w.toList with
  | [] => false
  | c :: cs => !isSpace c && (c ≠ '/' || cs.isEmpty)

variable {t r : List Char} {w : String} {toks rest : List String}

theorem begins_spaced : Begins (spaced toks) toks := rfl

theorem spaced_head : ∀ c ∈ (spaced toks).head?, c = ' ' := by
  cases toks with
  | nil => exact nofun
  | cons w toks => exact fun c hc => (Option.some.inj hc).symm

theorem ends_spaced : Ends (spaced toks) := fun c hc => by
  rw [spaced_head c hc]
  rfl

theorem of_isToken (h : isToken w = true) :
    ∃ c cs, w.toList = c :: cs ∧ isSpace c = false ∧ (c = '/' → cs = []) := by
  unfold isToken at h
  split at h
  next => cases h
  next c cs hc =>
    simp only [Bool.and_eq_true, Bool.not_eq_true', Bool.or_eq_true, decide_eq_true_eq,
      List.isEmpty_iff] at h
    exact ⟨c, cs, hc, h.1, fun hslash => h.2.resolve_left fun hne => hne hslash⟩

theorem toList_ne_nil (h : isToken w = true) : w.toList ≠ [] := by
  obtain ⟨c, cs, hc, -⟩ := of_isToken h
  rw [hc]
  exact List.cons_ne_nil _ _

theorem Begins.skip_eq (h : Begins t (w :: toks)) (hw : isToken w = true) :
    skip t = w.toList ++ spaced toks := by
  obtain ⟨c, cs, hc, hs, hslash⟩ := of_isToken hw
  have hsolid : Solid (c :: (cs ++ spaced toks)) := solid_cons hs fun heq d r hd => by
    subst heq
    rw [hslash rfl] at hd
    have : d = ' ' := spaced_head d (by rw [List.nil_append] at hd; rw [hd]; rfl)
    subst this
    decide
  rw [h]
  show skip (w.toList ++ spaced toks) = _
  rw [hc, List.cons_append, skip_of_solid hsolid]

theorem Begins.skip_nil (h : Begins t []) : skip t = [] := h

/-- A word without blanks begins a text of tokens only where it begins the first one. -/
theorem prefix_spaced {s l : List Char} (hs : ' ' ∉ s) (h : s <+: l ++ spaced toks) : s <+: l :=
  prefix_of_prefix_append h fun c hc => spaced_head c hc ▸ hs

theorem Begins.not_prefix {s : List Char} (h : Begins t toks) (hne : s ≠ []) (hs : ' ' ∉ s)
    (hw : ∀ w ∈ toks.head?, isToken w = true ∧ ¬ s <+: w.toList) : ¬ s <+: skip t := by
  cases toks with
  | nil =>
    rw [h.skip_nil]
    exact fun hp => hne (List.prefix_nil.mp hp)
  | cons w toks =>
    rw [h.skip_eq (hw w rfl).1]
    exact fun hp => (hw w rfl).2 (prefix_spaced hs hp)

theorem Begins.lit_ok (h : Begins t (w :: toks)) (hw : isToken w = true) :
    lit w t = .ok () (spaced toks) := Grammar.lit_ok (h.skip_eq hw)

theorem Begins.lit_fail (h : Begins t toks) (hne : w.toList ≠ []) (hs : ' ' ∉ w.toList)
    (hw : ∀ w' ∈ toks.head?, isToken w' = true ∧ ¬ w.toList <+: w'.toList) : lit w t = .fail :=
  Grammar.lit_fail (h.not_prefix hne hs hw)

theorem Begins.symbol_ok {table : List (String × α)} {a : α} (h : Begins t (w :: toks))
    (hw : isToken w = true) (hm : (w, a) ∈ table) (hu : ∀ e ∈ table, e.1 = w → e.2 = a)
    (hs : ∀ e ∈ table, ' ' ∉ e.1.toList) : symbol table t = .ok a (spaced toks) :=
  Grammar.symbol_ok hm hu (h.skip_eq hw) fun e he hp =>
    prefix_spaced (hs e he) (h.skip_eq hw ▸ hp)

theorem Begins.symbol_fail {table : List (String × α)} (h : Begins t toks)
    (hne : ∀ e ∈ table, e.1.toList ≠ [] ∧ ' ' ∉ e.1.toList)
    (hw : ∀ w ∈ toks.head?, isToken w = true ∧ ∀ e ∈ table, ¬ e.1.toList <+: w.toList) :
    symbol table t = .fail :=
  Grammar.symbol_fail fun e he => h.not_prefix (hne e he).1 (hne e he).2 fun w hm =>
    ⟨(hw w hm).1, (hw w hm).2 e he⟩

/-! ## Reading -/

/-- The tokens go on with one of these words, if at all. -/
def Follows (F : List String) (toks : List String) : Prop := ∀ w ∈ toks.head?, w ∈ F

/-- `p` takes the tokens of `a`, whatever follows them that `R` holds of. -/
def ReadsBefore (p : Parser α) (a : α) (toks : List String) (R : List String → Prop) : Prop :=
  ∀ t rest, R rest → Begins t (toks ++ rest) → p t = .ok a (spaced rest)

/-- `p` takes the tokens of `a`, whatever of `F` follows them. -/
def Reads (p : Parser α) (a : α) (toks : List String) (F : List String) : Prop :=
  ∀ t rest, Follows F rest → Begins t (toks ++ rest) → p t = .ok a (spaced rest)

section Reads

variable {p : Parser α} {f : α → List String} {F G : List String} {n : Nat}

theorem Reads.mono {a : α} (h : Reads p a toks G) (hF : F ⊆ G) : Reads p a toks F :=
  fun t rest hrest ht => h t rest (fun w hw => hF (hrest w hw)) ht

/-- What is repeated goes on with itself; what comes last goes on as the repetition does. -/
theorem many_before {R S : List String → Prop} {as : List α}
    (hp : ∀ a ∈ as.dropLast, ReadsBefore p a (f a) S) (hlast : ∀ a ∈ as.getLast?, ReadsBefore p a (f a) R)
    (hS : ∀ a ∈ as, ∀ rest, S (f a ++ rest))
    (hfail : ∀ t rest, R rest → Begins t rest → p t = .fail) (hn : as.length ≤ n) (hrest : R rest) :
    many p n (spaced (as.flatMap f ++ rest)) = .ok as (spaced rest) := by
  induction as generalizing n with
  | nil => exact many_fail (hfail _ _ hrest begins_spaced)
  | cons a as ih =>
    cases n with
    | zero => exact absurd hn (Nat.not_succ_le_zero _)
    | succ n =>
      have hbegins : Begins (spaced ((a :: as).flatMap f ++ rest)) (f a ++ (as.flatMap f ++ rest)) := by
        rw [List.flatMap_cons, List.append_assoc]
        rfl
      cases as with
      | nil => exact many_ok (hlast a rfl _ _ hrest hbegins) (many_fail (hfail _ _ hrest begins_spaced))
      | cons b bs =>
        have hnext : S ((b :: bs).flatMap f ++ rest) := by
          rw [List.flatMap_cons, List.append_assoc]
          exact hS b (by simp) _
        refine many_ok (hp a (by simp) _ _ hnext hbegins) (ih (fun c hc => hp c ?_) (fun c hc => hlast c ?_)
          (fun c hc => hS c (List.mem_cons_of_mem _ hc)) (Nat.le_of_succ_le_succ hn))
        · rw [List.dropLast_cons_cons]
          exact List.mem_cons_of_mem _ hc
        · rwa [List.getLast?_cons_cons]

/-- What is repeated goes on with itself, or with what the repetition goes on with. -/
theorem many_spaced {as : List α} (hp : ∀ a ∈ as, Reads p a (f a) G) (hFG : F ⊆ G)
    (hG : ∀ a ∈ as, ∃ w ws, f a = w :: ws ∧ w ∈ G)
    (hfail : ∀ t rest, Follows F rest → Begins t rest → p t = .fail) (hn : as.length ≤ n)
    (hrest : Follows F rest) :
    many p n (spaced (as.flatMap f ++ rest)) = .ok as (spaced rest) := by
  refine many_before (R := Follows F) (S := Follows G) (fun a ha => hp a (List.dropLast_subset _ ha))
    (fun a ha => (hp a (List.mem_of_getLast? ha)).mono hFG) (fun a ha rest w hw => ?_) hfail hn hrest
  obtain ⟨v, vs, hv, hG⟩ := hG a ha
  rw [hv] at hw
  cases hw
  exact hG

/-- A list with commas, and what stands after its end. -/
theorem enclosed_ok {as : List α} {k : List α → Parser β} {t : List Char} (hw : isToken w = true)
    (hcomma : ¬ ",".toList <+: w.toList) (hp : ∀ a ∈ as, Reads p a (f a) [",", w])
    (hfail : ∀ t rest, Begins t (w :: rest) → p t = .fail) (hn : as.length ≤ n)
    (ht : Begins t (commas (as.map f) ++ w :: rest)) :
    (do let es ← option (list n (lit ",") p); lit w; k (es.getD [])) t = k as (spaced rest) := by
  cases as with
  | nil =>
    have hlist : list n (lit ",") p t = .fail := bind_fail (hfail t rest ht)
    exact (bind_ok (option_fail hlist)).trans (bind_ok (ht.lit_ok hw))
  | cons a as =>
    have hfollows : ∀ bs : List α, Follows [",", w]
        (bs.flatMap (fun b => "," :: f b) ++ w :: rest) := by
      intro bs w' hw'
      cases bs with
      | nil => cases hw'; simp
      | cons b bs => cases hw'; simp
    have hfirst : p t = .ok a (spaced (as.flatMap (fun b => "," :: f b) ++ w :: rest)) :=
      hp a (by simp) _ _ (hfollows as) (by
        rw [List.map_cons, commas, List.flatMap_map, List.append_assoc] at ht
        exact ht)
    have hmore : many (do lit ","; p) n (spaced (as.flatMap (fun b => "," :: f b) ++ w :: rest)) =
        .ok as (spaced (w :: rest)) := by
      refine many_spaced (F := [w]) (G := [",", w]) (fun b hb t rest' hrest' ht' => ?_) (by simp)
        (fun b hb => ⟨",", f b, rfl, by simp⟩) (fun t rest' hrest' ht' => ?_)
        (Nat.le_of_succ_le hn) (fun w' hw' => ?_)
      · exact (bind_ok (ht'.lit_ok (by decide))).trans
          (hp b (List.mem_cons_of_mem _ hb) _ _ hrest' begins_spaced)
      · refine bind_fail (ht'.lit_fail (by decide) (by decide) fun w' hw' => ?_)
        have heq : w' = w := List.mem_singleton.mp (hrest' w' hw')
        exact heq ▸ ⟨hw, hcomma⟩
      · cases hw'
        simp
    have hlist : list n (lit ",") p t = .ok (a :: as) (spaced (w :: rest)) :=
      (bind_ok hfirst).trans (bind_ok hmore)
    exact (bind_ok (option_ok hlist)).trans (bind_ok (begins_spaced.lit_ok hw))

/-! ### Layers of operators -/

/-- A table with one name for each operator. -/
structure Operators [DecidableEq β] (table : List (String × β)) : Prop where
  token : ∀ e ∈ table, isToken e.1 = true ∧ ' ' ∉ e.1.toList
  unique : ∀ e ∈ table, ∀ e' ∈ table, e.1 = e'.1 → e.2 = e'.2
  complete : ∀ op, (spelling table op, op) ∈ table

theorem operators_unary : Operators unaryOp :=
  ⟨by decide, by decide, fun op => by cases op <;> decide⟩

theorem operators_multiplicative : Operators multiplicativeOp :=
  ⟨by decide, by decide, fun op => by cases op <;> decide⟩

theorem operators_additive : Operators additiveOp :=
  ⟨by decide, by decide, fun op => by cases op <;> decide⟩

theorem operators_relational : Operators relationalOp :=
  ⟨by decide, by decide, fun op => by cases op <;> decide⟩

theorem operators_equality : Operators equalityOp :=
  ⟨by decide, by decide, fun op => by cases op <;> decide⟩

theorem operators_logical : Operators logicalOp :=
  ⟨by decide, by decide, fun op => by cases op <;> decide⟩

variable [DecidableEq β] {table : List (String × β)} {term : Parser α}

theorem Operators.symbol_ok (h : Operators table) {op : β} {t : List Char}
    (ht : Begins t (spelling table op :: rest)) : symbol table t = .ok op (spaced rest) :=
  have hm := h.complete op
  ht.symbol_ok (h.token _ hm).1 hm (fun e he heq => h.unique e he _ hm heq)
    fun e he => (h.token e he).2

theorem Operators.symbol_fail (h : Operators table) {t : List Char} (ht : Begins t rest)
    (hw : ∀ w ∈ rest.head?, isToken w = true ∧ ∀ e ∈ table, ¬ e.1.toList <+: w.toList) :
    symbol table t = .fail :=
  ht.symbol_fail (fun e he => ⟨toList_ne_nil (h.token e he).1, (h.token e he).2⟩) hw

theorem length_lt_of_terms {e : BinaryExpression α β} (hne : f e.first ≠ []) :
    e.terms.length < (binaryTokens table f e).length := by
  have hfirst := List.length_pos_iff.mpr hne
  have hterms : ∀ terms : List (Operation α β),
      terms.length ≤ (operationsTokens table f terms).length := by
    intro terms
    induction terms with
    | nil => exact Nat.le_refl _
    | cons o terms ih =>
      simp only [operationsTokens, List.flatMap_cons, List.length_append, List.length_cons] at ih ⊢
      omega
  have := hterms e.terms
  simp only [binaryTokens, List.length_append]
  omega

theorem length_le_of_operand {e : BinaryExpression α β} {a : α} (ha : a ∈ e.operands) :
    (f a).length ≤ (binaryTokens table f e).length := by
  simp only [binaryTokens, List.length_append]
  rcases List.mem_cons.mp ha with rfl | ha
  · exact Nat.le_add_right _ _
  · obtain ⟨o, ho, rfl⟩ := List.mem_map.mp ha
    have hsub : (spelling table o.op :: f o.term) <:+: operationsTokens table f e.terms := by
      rw [operationsTokens, List.flatMap_def]
      exact List.infix_of_mem_flatten (List.mem_map_of_mem ho)
    have := hsub.length_le
    rw [List.length_cons] at this
    omega

omit [DecidableEq β] in
theorem operands_dropLast {e : BinaryExpression α β} {o : Operation α β} (ho : o ∈ e.terms.dropLast) :
    o.term ∈ e.operands.dropLast := by
  obtain ⟨p, ps, hp⟩ := List.exists_cons_of_ne_nil (List.ne_nil_of_mem (List.dropLast_subset _ ho))
  rw [BinaryExpression.operands, hp, List.map_cons, List.dropLast_cons_cons, ← List.map_cons, ← hp,
    ← List.map_dropLast]
  exact List.mem_cons_of_mem _ (List.mem_map_of_mem ho)

omit [DecidableEq β] in
theorem operands_getLast {e : BinaryExpression α β} {o : Operation α β} (ho : o ∈ e.terms.getLast?) :
    o.term ∈ e.operands.getLast? := by
  rw [BinaryExpression.operands, List.getLast?_cons, List.getLast?_map, Option.mem_def.mp ho]
  rfl

/-- A layer reads its operands up to one of its own operators, and the last one up to what follows
the layer. -/
theorem reads_binary (ht : Operators table) {e : BinaryExpression α β}
    (hF : ∀ w ∈ F, isToken w = true ∧ ∀ e ∈ table, ¬ e.1.toList <+: w.toList)
    (hne : ∀ a, f a ≠ []) (hlen : (binaryTokens table f e).length ≤ n + 1)
    (hterm : ∀ a ∈ e.operands.dropLast, (f a).length ≤ n + 1 →
      Reads term a (f a) (F ++ table.map Prod.fst))
    (hlast : ∀ a ∈ e.operands.getLast?, (f a).length ≤ n + 1 → Reads term a (f a) F) :
    Reads (binaryExpr n table term) e (binaryTokens table f e) F := by
  have hlen' : ∀ a ∈ e.operands, (f a).length ≤ n + 1 := fun a ha =>
    (length_le_of_operand ha).trans hlen
  have hread : ∀ a ∈ e.operands.dropLast, Reads term a (f a) (F ++ table.map Prod.fst) := fun a ha =>
    hterm a ha (hlen' a (List.dropLast_subset _ ha))
  have hread' : ∀ a ∈ e.operands.getLast?, Reads term a (f a) F := fun a ha =>
    hlast a ha (hlen' a (List.mem_of_getLast? ha))
  have hword : ∀ op, spelling table op ∈ F ++ table.map Prod.fst := fun op =>
    List.mem_append_right _ (List.mem_map_of_mem (f := Prod.fst) (ht.complete op))
  intro t rest hrest htoks
  have hbegins : Begins t (f e.first ++ (operationsTokens table f e.terms ++ rest)) := by
    rw [binaryTokens, List.append_assoc] at htoks
    exact htoks
  have hfirst : term t = .ok e.first (spaced (operationsTokens table f e.terms ++ rest)) := by
    cases hterms : e.terms with
    | nil =>
      rw [hterms] at hbegins
      exact hread' e.first (by rw [BinaryExpression.operands, hterms]; rfl) _ _ hrest hbegins
    | cons o terms =>
      rw [hterms] at hbegins
      refine hread e.first (by rw [BinaryExpression.operands, hterms]; exact List.mem_cons_self) _ _
        (fun w hw => ?_) hbegins
      cases hw
      exact hword o.op
  have hmore : many (do let op ← symbol table; let term ← term.expect; return ⟨op, term⟩) n
      (spaced (operationsTokens table f e.terms ++ rest)) = .ok e.terms (spaced rest) := by
    refine many_before (R := Follows F) (S := Follows (F ++ table.map Prod.fst))
      (fun o ho t rest' hrest' ht' => ?_) (fun o ho t rest' hrest' ht' => ?_) (fun o _ rest' w hw => ?_)
      (fun t rest' hrest' ht' => ?_) ?_ hrest
    · exact (bind_ok (ht.symbol_ok ht')).trans
        (bind_ok (expect_ok (hread o.term (operands_dropLast ho) _ _ hrest' begins_spaced)))
    · exact (bind_ok (ht.symbol_ok ht')).trans
        (bind_ok (expect_ok (hread' o.term (operands_getLast ho) _ _ hrest' begins_spaced)))
    · cases hw
      exact hword o.op
    · exact bind_fail (ht.symbol_fail ht' fun w hw => hF w (hrest' w hw))
    · exact Nat.le_of_lt_succ ((length_lt_of_terms (hne _)).trans_le hlen)
  exact (bind_ok hfirst).trans (bind_ok hmore)

/-! ### Layers in layers -/

/-- A rule reads what is made of units, up to `G`, where each unit but the last is read up to
anything in `A`. No word of `T` begins a word of `G`. -/
def Layer {γ : Type} (n : Nat) (A T : List String) (unit : Parser γ) (g : γ → List String)
    (term : Parser α) (f : α → List String) (units : α → List γ) : Prop :=
  ∀ a G, G ⊆ A → (∀ w ∈ G, isToken w = true ∧ ∀ s ∈ T, ¬ s.toList <+: w.toList) →
    (f a).length ≤ n + 1 →
    (∀ u ∈ (units a).dropLast, (g u).length ≤ n + 1 → Reads unit u (g u) A) →
    (∀ u ∈ (units a).getLast?, (g u).length ≤ n + 1 → Reads unit u (g u) G) →
    Reads term a (f a) G

section Layer

variable {γ : Type} {A T : List String} {unit : Parser γ} {g : γ → List String} {units : α → List γ}

theorem layer_unit : Layer n A [] unit g unit g fun u => [u] :=
  fun u _ _ _ hlen _ hlast => hlast u rfl hlen

theorem mem_dropLast_flatMap {l : List α} {u : γ} (hne : ∀ a, units a ≠ []) :
    u ∈ (l.flatMap units).dropLast ↔
      (∃ a ∈ l.dropLast, u ∈ units a) ∨ ∃ a ∈ l.getLast?, u ∈ (units a).dropLast := by
  rcases List.eq_nil_or_concat l with rfl | ⟨l, a, rfl⟩
  · simp
  · rw [List.concat_eq_append, List.flatMap_append, List.flatMap_singleton,
      List.dropLast_append_of_ne_nil (hne a), List.dropLast_concat, List.getLast?_concat, List.mem_append,
      List.mem_flatMap]
    simp

theorem mem_getLast_flatMap {l : List α} {u : γ} (hne : ∀ a, units a ≠ []) :
    u ∈ (l.flatMap units).getLast? ↔ ∃ a ∈ l.getLast?, u ∈ (units a).getLast? := by
  rcases List.eq_nil_or_concat l with rfl | ⟨l, a, rfl⟩
  · simp
  · rw [List.concat_eq_append, List.flatMap_append, List.flatMap_singleton,
      List.getLast?_append_of_ne_nil _ (hne a), List.getLast?_concat]
    simp

theorem Layer.binary (h : Layer n A T unit g term f units) (ht : Operators table)
    (hA : table.map Prod.fst ⊆ A)
    (hT : ∀ w ∈ table.map Prod.fst, isToken w = true ∧ ∀ s ∈ T, ¬ s.toList <+: w.toList)
    (hne : ∀ a, f a ≠ []) (hunits : ∀ a, units a ≠ []) :
    Layer n A (T ++ table.map Prod.fst) unit g (binaryExpr n table term) (binaryTokens table f)
      fun e => e.operands.flatMap units := by
  intro e G hGA hG hlen hunit hlast
  have htable : ∀ w ∈ G, isToken w = true ∧ ∀ e ∈ table, ¬ e.1.toList <+: w.toList := fun w hw =>
    ⟨(hG w hw).1, fun e he => (hG w hw).2 _ (List.mem_append_right _ (List.mem_map_of_mem he))⟩
  have hinner : ∀ w ∈ G, isToken w = true ∧ ∀ s ∈ T, ¬ s.toList <+: w.toList := fun w hw =>
    ⟨(hG w hw).1, fun s hs => (hG w hw).2 s (List.mem_append_left _ hs)⟩
  refine reads_binary ht htable hne hlen (fun a ha hlen => ?_) fun a ha hlen => ?_
  · -- All the units of an operand that is not the last one are followed by more of them.
    have hall : ∀ u ∈ units a, u ∈ (e.operands.flatMap units).dropLast := fun u hu =>
      (mem_dropLast_flatMap hunits).mpr (.inl ⟨a, ha, hu⟩)
    have hsub : G ++ table.map Prod.fst ⊆ A := List.append_subset.mpr ⟨hGA, hA⟩
    refine h a _ hsub (List.forall_mem_append.mpr ⟨hinner, hT⟩) hlen (fun u hu hlen => ?_)
      fun u hu hlen => ?_
    · exact hunit u (hall u (List.dropLast_subset _ hu)) hlen
    · exact (hunit u (hall u (List.mem_of_getLast? hu)) hlen).mono hsub
  · refine h a G hGA hinner hlen (fun u hu hlen => ?_) fun u hu hlen => ?_
    · exact hunit u ((mem_dropLast_flatMap hunits).mpr (.inr ⟨a, ha, hu⟩)) hlen
    · exact hlast u ((mem_getLast_flatMap hunits).mpr ⟨a, ha, hu⟩) hlen

end Layer

end Reads

section Layers

variable {reals : Reals} {n : Nat}

/-- What can follow an expression inside another one, and then the operand of each layer. -/
def closers : List String := [")", "]", ","]

def afterEquality : List String := closers ++ logicalOp.map Prod.fst

def afterRelational : List String := afterEquality ++ equalityOp.map Prod.fst

def afterAdditive : List String := afterRelational ++ relationalOp.map Prod.fst

def afterMultiplicative : List String := afterAdditive ++ additiveOp.map Prod.fst

def afterUnary : List String := afterMultiplicative ++ multiplicativeOp.map Prod.fst

/-- What can follow an operand of an expression that `F` follows. -/
def afterOperand (F : List String) : List String :=
  F ++ logicalOp.map Prod.fst ++ equalityOp.map Prod.fst ++ relationalOp.map Prod.fst ++
    additiveOp.map Prod.fst ++ multiplicativeOp.map Prod.fst

/-- An expression goes on with none of these words. -/
def Closing (F : List String) : Prop :=
  ∀ w ∈ F, isToken w = true ∧ ∀ s ∈ afterOperand [".", "("], ¬ s.toList <+: w.toList

instance decidablePred_closing : DecidablePred Closing := fun F =>
  inferInstanceAs (Decidable (∀ w ∈ F, isToken w = true ∧ _))

theorem mem_afterOperand {F : List String} {w : String} :
    w ∈ afterOperand F ↔ w ∈ F ∨ w ∈ afterOperand [] := by
  simp only [afterOperand, List.append_assoc, List.nil_append, List.mem_append]

theorem Closing.ne {F : List String} (hF : Closing F) {w : String} (hw : w ∈ F) {s : String}
    (hs : s ∈ afterOperand [".", "("]) : w ≠ s := by
  rintro rfl
  exact (hF w hw).2 w hs (List.prefix_refl _)

/-- A word that follows an operand is no part of the operand. -/
theorem Closing.operand {F : List String} (hF : Closing F) :
    ∀ w ∈ afterOperand F, isToken w = true ∧ ∀ s ∈ [".", "("], ¬ s.toList <+: w.toList := by
  intro w hw
  have hsub : ∀ s ∈ [".", "("], s ∈ afterOperand [".", "("] := by decide
  have hall : ∀ w ∈ afterOperand [], isToken w = true ∧
      ∀ s ∈ [".", "("], ¬ s.toList <+: w.toList := by decide
  rcases mem_afterOperand.mp hw with hw | hw
  · exact ⟨(hF w hw).1, fun s hs => (hF w hw).2 s (hsub s hs)⟩
  · exact hall w hw

theorem Closing.append [DecidableEq β] {F G : List String} (hF : Closing F)
    {table : List (String × β)} (ht : ∀ e ∈ table, e.1 ∈ afterOperand [".", "("])
    (hG : ∀ w ∈ G, isToken w = true ∧ ∀ e ∈ table, ¬ e.1.toList <+: w.toList) :
    ∀ w ∈ F ++ G, isToken w = true ∧ ∀ e ∈ table, ¬ e.1.toList <+: w.toList :=
  List.forall_mem_append.mpr ⟨fun w hw => ⟨(hF w hw).1, fun e he => (hF w hw).2 _ (ht e he)⟩, hG⟩

theorem binaryTokens_ne_nil [DecidableEq β] {table : List (String × β)} {f : α → List String}
    (hne : ∀ a, f a ≠ []) (e : BinaryExpression α β) : binaryTokens table f e ≠ [] :=
  List.append_ne_nil_of_left_ne_nil (hne e.first) _

theorem primaryTokens_ne_nil (e : PrimaryExpression) : primaryTokens e ≠ [] := by
  cases e <;> simp [primaryTokens, pathTokens]

theorem unaryTokens_ne_nil (e : UnaryExpression) : unaryTokens e ≠ [] := by
  obtain ⟨op, e⟩ := e
  cases op with
  | none => exact primaryTokens_ne_nil e
  | some op => exact List.cons_ne_nil _ _

theorem multiplicativeTokens_ne_nil (e : MultiplicativeExpression) : multiplicativeTokens e ≠ [] :=
  multiplicativeTokens_eq e ▸ binaryTokens_ne_nil unaryTokens_ne_nil e

theorem additiveTokens_ne_nil (e : AdditiveExpression) : additiveTokens e ≠ [] :=
  additiveTokens_eq e ▸ binaryTokens_ne_nil multiplicativeTokens_ne_nil e

theorem relationalTokens_ne_nil (e : RelationalExpression) : relationalTokens e ≠ [] :=
  relationalTokens_eq e ▸ binaryTokens_ne_nil additiveTokens_ne_nil e

theorem equalityTokens_ne_nil (e : EqualityExpression) : equalityTokens e ≠ [] :=
  equalityTokens_eq e ▸ binaryTokens_ne_nil relationalTokens_ne_nil e

theorem expressionTokens_ne_nil (e : Expression) : expressionTokens e ≠ [] := by
  obtain ⟨logical⟩ := e
  rw [expressionTokens, logicalTokens_eq]
  exact binaryTokens_ne_nil equalityTokens_ne_nil logical

theorem operands_ne_nil {Term Operator γ : Type} {units : Term → List γ} (hne : ∀ a, units a ≠ [])
    (e : BinaryExpression Term Operator) : e.operands.flatMap units ≠ [] :=
  List.append_ne_nil_of_left_ne_nil (hne e.first) _

theorem layer_logical {A : List String} (hA : afterOperand [] ⊆ A) :
    Layer n A (multiplicativeOp.map Prod.fst ++ additiveOp.map Prod.fst ++ relationalOp.map Prod.fst ++
        equalityOp.map Prod.fst ++ logicalOp.map Prod.fst)
      (unaryExpr reals n (expression reals n)) unaryTokens (logicalExpr reals n (expression reals n))
      (binaryTokens logicalOp equalityTokens) fun e => (Expression.mk e).unaries := by
  have hsub : ∀ {T : List String}, T ⊆ afterOperand [] → T ⊆ A := fun h => List.Subset.trans h hA
  have hunary : Layer n A [] (unaryExpr reals n (expression reals n)) unaryTokens
      (unaryExpr reals n (expression reals n)) unaryTokens fun u => [u] := layer_unit
  have hmultiplicative := hunary.binary operators_multiplicative (hsub (by decide)) (by decide)
    unaryTokens_ne_nil fun u => List.cons_ne_nil u []
  rw [List.nil_append, ← funext multiplicativeTokens_eq] at hmultiplicative
  have hunits₁ : ∀ e : MultiplicativeExpression, (e.operands.flatMap fun u => [u]) ≠ [] :=
    operands_ne_nil fun u => List.cons_ne_nil u []
  have hadditive := hmultiplicative.binary operators_additive (hsub (by decide)) (by decide)
    multiplicativeTokens_ne_nil hunits₁
  rw [← funext additiveTokens_eq] at hadditive
  have hunits₂ : ∀ e : AdditiveExpression,
      (e.operands.flatMap fun e => e.operands.flatMap fun u => [u]) ≠ [] := operands_ne_nil hunits₁
  have hrelational := hadditive.binary operators_relational (hsub (by decide)) (by decide)
    additiveTokens_ne_nil hunits₂
  rw [← funext relationalTokens_eq] at hrelational
  have hunits₃ : ∀ e : RelationalExpression, (e.operands.flatMap fun e =>
      e.operands.flatMap fun e => e.operands.flatMap fun u => [u]) ≠ [] := operands_ne_nil hunits₂
  have hequality := hrelational.binary operators_equality (hsub (by decide)) (by decide)
    relationalTokens_ne_nil hunits₃
  rw [← funext equalityTokens_eq] at hequality
  have hunits₄ : ∀ e : EqualityExpression, (e.operands.flatMap fun e => e.operands.flatMap fun e =>
      e.operands.flatMap fun e => e.operands.flatMap fun u => [u]) ≠ [] := operands_ne_nil hunits₃
  have hlogical := hequality.binary operators_logical (hsub (by decide)) (by decide)
    equalityTokens_ne_nil hunits₄
  simp only [List.flatMap_singleton'] at hlogical
  exact hlogical

/-- An expression is read when its unary expressions are: the last one up to what follows the
expression, and the others up to the operator that follows them. -/
theorem reads_layers {F : List String} (hF : Closing F) {e : Expression}
    (hlen : (expressionTokens e).length ≤ n + 1)
    (hunary : ∀ u ∈ e.unaries.dropLast, (unaryTokens u).length ≤ n + 1 →
      Reads (unaryExpr reals n (expression reals n)) u (unaryTokens u) (afterOperand F))
    (hlast : ∀ u ∈ e.unaries.getLast?, (unaryTokens u).length ≤ n + 1 →
      Reads (unaryExpr reals n (expression reals n)) u (unaryTokens u) F) :
    Reads (expression reals (n + 1)) e (expressionTokens e) F := by
  obtain ⟨logical⟩ := e
  have htokens : expressionTokens (.mk logical) = binaryTokens logicalOp equalityTokens logical := by
    rw [expressionTokens, logicalTokens_eq]
  have hclosing : ∀ w ∈ F, isToken w = true ∧ ∀ s ∈ multiplicativeOp.map Prod.fst ++
      additiveOp.map Prod.fst ++ relationalOp.map Prod.fst ++ equalityOp.map Prod.fst ++
      logicalOp.map Prod.fst, ¬ s.toList <+: w.toList := by
    have hall : ∀ s ∈ multiplicativeOp.map Prod.fst ++ additiveOp.map Prod.fst ++
      relationalOp.map Prod.fst ++ equalityOp.map Prod.fst ++ logicalOp.map Prod.fst,
      s ∈ afterOperand [".", "("] := by decide
    exact fun w hw => ⟨(hF w hw).1, fun s hs => (hF w hw).2 s (hall s hs)⟩
  have hA : afterOperand [] ⊆ afterOperand F := fun w hw => mem_afterOperand.mpr (.inr hw)
  rw [htokens] at hlen ⊢
  have hlogical := layer_logical hA logical F (fun w hw => mem_afterOperand.mpr (.inl hw)) hclosing
    hlen hunary hlast
  exact fun t rest hrest ht => bind_ok (hlogical t rest hrest ht)

/-! ### Identifiers -/

/-- An identifier that begins with no keyword and with no boolean. -/
structure Plain (w : Identifier) : Prop where
  spelled : Spelled w
  keyword : Unreserved w.toList
  boolean : ∀ e ∈ boolean, ¬ e.1.toList <+: w.toList

theorem Spelled.isToken {w : Identifier} (h : Spelled w) : isToken w = true := by
  obtain ⟨c, cs, hc, hs, -⟩ := h
  have hspace : isSpace c = false := isSpace_of_continues (continues_of_starts hs)
  have hne : c ≠ '/' := ne_of_starts hs (by decide)
  simp [Grammar.isToken, hc, hspace, hne]

/-- No word that a letter does not begin begins an identifier. -/
theorem Spelled.not_prefix {w : Identifier} (h : Spelled w) {s : List Char}
    (hs : s.head?.any (fun c => !startsIdentifier c) = true) : ¬ s <+: w.toList := by
  have hhead := head_of_spelled (r := []) h
  rw [List.append_nil] at hhead
  exact not_prefix_of_head hs fun c hc => by rw [hhead c hc]; rfl

theorem identifier_spaced {t : List Char} {w : Identifier} (hw : Spelled w)
    (hk : Unreserved w.toList) (ht : Begins t (w :: rest)) : identifier t = .ok w (spaced rest) :=
  identifier_ok (ht.skip_eq hw.isToken) hw hk ends_spaced

theorem Plain.identifier_ok {t : List Char} {w : Identifier} (h : Plain w)
    (ht : Begins t (w :: rest)) : identifier t = .ok w (spaced rest) :=
  identifier_spaced h.spelled h.keyword ht

theorem identifier_keyword {t : List Char} {kw : String} (hkw : kw ∈ keywords)
    (ht : Begins t (kw :: rest)) : identifier t = .fail := by
  have htoken : ∀ kw ∈ keywords, isToken kw = true ∧ ' ' ∉ kw.toList := by decide
  have hsymbol : symbols keyword (skip t) = .ok () (spaced rest) := by
    have hm : (kw, ()) ∈ keyword := List.mem_map_of_mem hkw
    refine symbols_ok hm (fun _ _ _ => rfl) (ht.skip_eq (htoken kw hkw).1) fun e he hp => ?_
    obtain ⟨kw', hkw', rfl⟩ := List.mem_map.mp he
    exact prefix_spaced (htoken kw' hkw').2 (ht.skip_eq (htoken kw hkw).1 ▸ hp)
  have hbase : identifierBase (spaced rest) = .fail := identifierBase_fail fun c hc => by
    rw [spaced_head c hc]
    rfl
  have hnot : notAhead identifierBase (spaced rest) = .ok () (spaced rest) := by
    rw [notAhead, hbase]
  have hreserved : reserved t = .ok () (spaced rest) := (bind_ok hsymbol).trans hnot
  exact bind_fail (by rw [notAhead, hreserved])

theorem reads_path {path : IdentifierPath} {F : List String}
    (hp : ∀ w ∈ path.front :: path.properties, Plain w) (hn : path.properties.length ≤ n)
    (hF : ∀ w ∈ F, isToken w = true ∧ ¬ ".".toList <+: w.toList) :
    Reads (identifierPath n) path (pathTokens path) F := by
  intro t rest hrest ht
  have hfront : identifier t = .ok path.front
      (spaced (path.properties.flatMap (fun name => [".", name]) ++ rest)) :=
    (hp _ List.mem_cons_self).identifier_ok ht
  have hmore : many (do lit "."; identifier) n
      (spaced (path.properties.flatMap (fun name => [".", name]) ++ rest)) =
      .ok path.properties (spaced rest) := by
    refine many_spaced (F := F) (G := "." :: F) (fun w hw t rest hrest ht => ?_)
      (List.subset_cons_self _ _) (fun w _ => ⟨_, _, rfl, List.mem_cons_self⟩)
      (fun t rest hrest ht => ?_) hn hrest
    · exact (bind_ok (ht.lit_ok (by decide))).trans
        ((hp w (List.mem_cons_of_mem _ hw)).identifier_ok begins_spaced)
    · exact bind_fail (ht.lit_fail (by decide) (by decide) fun w hw => hF w (hrest w hw))
  exact (bind_ok hfront).trans (bind_ok hmore)

/-! ### Literals -/

theorem integerToken {i : Int64} (hi : 0 ≤ i.toInt) :
    literalToken (.integer i) = toString i.toInt.toNat := by
  show toString i.toInt = _
  rw [← Int.toNat_of_nonneg hi]
  rfl

theorem head_digits {m : Nat} {r : List Char} :
    ∀ c ∈ ((toString m).toList ++ r).head?, c.isDigit = true := by
  intro c hc
  rw [List.head?_append_of_ne_nil _ (toString_ne_nil m)] at hc
  exact isDigit_of_mem_toString c (List.mem_of_mem_head? hc)

theorem isToken_digits (m : Nat) (s : String) : isToken (toString m ++ s) = true := by
  cases h : (toString m).toList with
  | nil => exact absurd h (toString_ne_nil m)
  | cons c cs =>
    have hc : c.isDigit = true := isDigit_of_mem_toString c (h ▸ List.mem_cons_self)
    have halnum : c.isAlphanum = true := by simp [Char.isAlphanum, hc]
    have hspace : isSpace c = false :=
      isSpace_of_continues (by simp [continuesIdentifier, halnum])
    have hne : c ≠ '/' := ne_of_isAlphanum halnum (by decide)
    rw [toList_toString] at h
    simp [Grammar.isToken, String.toList_append, h, hspace, hne]

/-- The literals that are printed in one token and read back. -/
def WritableLiteral : Literal → Prop
  | .boolean _ => True
  | .integer i => 0 ≤ i.toInt ∧ i.toInt < 2 ^ 31
  | .real _ => False
  | .string s => '\'' ∉ s.toList ∧ '"' ∉ s.toList
  | .duration d => d.count.toNat < 2 ^ 32

theorem WritableLiteral.isToken {l : Literal} (h : WritableLiteral l) :
    isToken (literalToken l) = true := by
  cases l with
  | boolean b => cases b <;> decide
  | integer i =>
    have := isToken_digits i.toInt.toNat ""
    rwa [String.append_empty, ← integerToken h.1] at this
  | real r => exact h.elim
  | string s => simp [literalToken, Grammar.isToken, String.toList_append, isSpace]
  | duration d => exact isToken_digits d.count.toNat _

theorem literal_ok {t : List Char} {l : Literal} (h : WritableLiteral l)
    (ht : Begins t (literalToken l :: rest)) : literal reals t = .ok l (spaced rest) := by
  have hskip := ht.skip_eq h.isToken
  cases l with
  | boolean b => exact literal_boolean (by cases b <;> decide) hskip
  | integer i =>
    rw [integerToken h.1] at hskip
    have hnot : ∀ c ∈ (spaced rest).head?, c.isDigit = false ∧ c ≠ '.' ∧ c ≠ 'e' ∧ c ≠ 'E' :=
      fun c hc => by
        rw [spaced_head c hc]
        decide
    have hunit : ∀ e ∈ durationUnit, ¬ e.1.toList <+: spaced rest := by
      have hall : ∀ e ∈ durationUnit, e.1.toList.head?.any (fun c => decide (c ≠ ' ')) = true := by
        decide
      exact fun e he => not_prefix_of_head (hall e he) fun c hc => by
        rw [spaced_head c hc]
        rfl
    have hlt : i.toInt.toNat < 2 ^ 31 := by
      have := h.2
      omega
    rw [literal_number hskip hunit (fun c hc => (hnot c hc).1) fun c hc => (hnot c hc).2,
      if_pos hlt, Int.toNat_of_nonneg h.1, Int64.ofInt_toInt]
  | real r => exact h.elim
  | string s =>
    refine literal_string h.1 ?_
    rw [hskip]
    simp [literalToken, String.toList_append]
  | duration d =>
    have hm := (show ∀ unit, (spelling durationUnit unit, unit) ∈ durationUnit from
      fun unit => by cases unit <;> decide) d.unit
    have htext : skip t = (toString d.count.toNat).toList ++
        ((spelling durationUnit d.unit).toList ++ spaced rest) := by
      rw [hskip, ← List.append_assoc, ← String.toList_append]
      rfl
    rw [literal_duration h hm htext, UInt64.ofNat_toNat]

end Layers

end EzCpp.Flow.Grammar
