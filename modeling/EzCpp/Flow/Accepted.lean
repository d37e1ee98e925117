import EzCpp.Flow.Programs

/-!
# What an accepted program is made of

Whatever the parser makes of a text, each of its identifiers is a word that the identifier rule takes
as a whole, also where another token may split it, and its numbers are in the ranges of the rules for
literals, which are smaller than those of the types that hold them (`accepted_wellFormed`).
-/

namespace EzCpp.Flow.Grammar

open EzCpp.Lib Ast Parser

variable {α : Type} {reals : Reals} {n : Nat} {t r : List Char} {w : Identifier}

/-! ## Identifiers -/

/-- The identifier rule takes the word as a whole. -/
def Whole (w : Identifier) : Prop := identifier w.toList = .ok w []

/-- What follows the end of a word does not change whether it is reserved. -/
theorem reserved_append {u v : List Char} (hu : Word u) (hne : u ≠ []) (hv : Ends v) :
    reserved (u ++ v) = (reserved u).append v := by
  have hword : ∀ e ∈ keyword, ∀ c ∈ e.1.toList, continuesIdentifier c = true := by decide
  have hsymbols : symbols keyword (u ++ v) = (symbols keyword u).append v :=
    symbols_append fun e he => word_prefix_iff (hword e he) hv
  have hbase : Agrees v (fun _ => True) identifierBase identifierBase := by
    rintro x -
    by_cases hx : x = []
    · rw [hx, List.nil_append, identifierBase_fail (not_startsIdentifier_of_ends hv)]
      rfl
    · exact identifierBase_append hv hx
  have hagrees : Agrees v (fun x => x = u) (symbols keyword) (symbols keyword) := by
    rintro _ rfl
    exact hsymbols
  have hall := hagrees.bind (Q := fun _ => True) (fun _ _ _ _ _ => trivial) fun _ => hbase.notAhead
  show (symbols keyword >>= fun _ => notAhead identifierBase) (skip (u ++ v)) =
    ((symbols keyword >>= fun _ => notAhead identifierBase) (skip u)).append v
  rw [hu.skip_append hne, hu.skip]
  exact hall rfl

theorem gives_identifier : Gives identifier Whole := by
  intro t w r h
  obtain ⟨hskip, hspelled, hends, hreserved⟩ := of_identifier_ok h
  obtain ⟨hword, hne⟩ := word_of_spelled hspelled
  have hfail : reserved w.toList = .fail := by
    have hsame : reserved t = reserved (w.toList ++ r) := by
      show (symbols keyword >>= fun _ => notAhead identifierBase) (skip t) =
        (symbols keyword >>= fun _ => notAhead identifierBase) (skip (w.toList ++ r))
      rw [hskip, hword.skip_append hne]
    rw [hsame, reserved_append hword hne hends] at hreserved
    exact of_append_fail hreserved
  have hbase : identifierBase (w.toList ++ []) = .ok w [] := identifierBase_ok hspelled nofun
  rw [List.append_nil] at hbase
  have hnot : notAhead reserved w.toList = .ok () w.toList := by rw [notAhead, hfail]
  exact (bind_ok hnot).trans (by rw [lexeme, hword.skip, hbase])

theorem gives_identifierPath : Gives (identifierPath n) fun path => ∀ w ∈ path.names, Whole w :=
  gives_identifier.bind fun _ hfront => (Gives.many (Gives.any.bind fun _ _ => gives_identifier)).bind
    fun _ hproperties => .pure (List.forall_mem_cons.mpr ⟨hfront, hproperties⟩)

/-! ## Literals -/

/-- Integers are those of 32 bits, and the counts of durations the ones without a sign; a string is
without one of the quotes. -/
def WellFormedLiteral : Literal → Prop
  | .boolean _ => True
  | .integer i => -2 ^ 31 ≤ i.toInt ∧ i.toInt < 2 ^ 31
  | .real _ => True
  | .string s => '\'' ∉ s.toList ∨ '"' ∉ s.toList
  | .duration d => d.count.toNat < 2 ^ 32

theorem gives_quoted (quote : Char) : Gives (quoted quote) fun s => quote ∉ s.toList := by
  intro t s r h
  cases t with
  | nil => cases h
  | cons c t =>
    simp only [quoted] at h
    split at h
    next =>
      split at h
      next => cases h
      next =>
        cases h
        intro hmem
        rw [String.toList_ofList] at hmem
        have hne : decide (quote ≠ quote) = true :=
          List.mem_takeWhile_imp (p := fun c => decide (c ≠ quote)) hmem
        exact absurd rfl (of_decide_eq_true hne)
    next => cases h

theorem gives_digits (bound : Nat) : Gives (digits bound) fun i => i ≤ bound := by
  intro t i r h
  simp only [digits] at h
  split at h
  next => cases h
  next hds =>
    cases h
    exact Nat.le_of_not_lt fun hlt => hds (.inr hlt)

theorem gives_lexeme {p : Parser α} {P : α → Prop} (hp : Gives p P) : Gives (lexeme p) P :=
  fun _ _ _ h => hp h

theorem toInt_ofInt {i : Int} (hle : -2 ^ 31 ≤ i) (hlt : i < 2 ^ 31) : (Int64.ofInt i).toInt = i :=
  Int64.toInt_ofInt_of_le (by omega) (by omega)

theorem gives_integer : Gives integer fun i => -2 ^ 31 ≤ i.toInt ∧ i.toInt < 2 ^ 31 := by
  have hpositive : Gives (do let i ← digits (2 ^ 31 - 1); return Int64.ofInt i) fun i =>
      -2 ^ 31 ≤ i.toInt ∧ i.toInt < 2 ^ 31 := by
    refine (gives_digits _).bind fun i hi => .pure ?_
    rw [toInt_ofInt (by omega) (by omega)]
    omega
  refine gives_lexeme fun t i r h => ?_
  split at h
  next =>
    have hnegative : Gives (do let i ← digits (2 ^ 31); return Int64.ofInt (-i)) fun i =>
        -2 ^ 31 ≤ i.toInt ∧ i.toInt < 2 ^ 31 := by
      refine (gives_digits _).bind fun i hi => .pure ?_
      by_cases hz : i = 0
      · subst hz
        decide
      · rw [toInt_ofInt (by omega) (by omega)]
        omega
    exact hnegative h
  next => exact hpositive h
  next => exact hpositive h

theorem gives_literal : Gives (literal reals) WellFormedLiteral := by
  refine .firstOf fun p hp => ?_
  simp only [List.mem_cons, List.not_mem_nil, or_false] at hp
  rcases hp with rfl | rfl | rfl | rfl | rfl
  · have hstring : Gives string fun s => '\'' ∉ s.toList ∨ '"' ∉ s.toList := by
      refine .firstOf fun p hp => ?_
      simp only [List.mem_cons, List.not_mem_nil, or_false] at hp
      rcases hp with rfl | rfl
      · exact fun t s r h => .inl (gives_quoted _ h)
      · exact fun t s r h => .inr (gives_quoted _ h)
    exact hstring.bind fun _ hs => .pure hs
  · exact Gives.any.bind fun _ _ => .pure trivial
  · have hduration : Gives duration fun d => d.count.toNat < 2 ^ 32 := by
      refine (gives_digits _).bind fun count hcount => Gives.any.bind fun _ _ => .pure ?_
      have hsize : UInt64.size = 2 ^ 64 := rfl
      show (UInt64.ofNat count).toNat < 2 ^ 32
      rw [UInt64.toNat_ofNat_of_lt' (by omega)]
      omega
    exact (gives_lexeme hduration).bind fun _ hd => .pure hd
  · exact Gives.any.bind fun _ _ => .pure trivial
  · exact gives_integer.bind fun _ hi => .pure hi

/-! ## Expressions -/

/-- The words and the numbers of a primary expression. -/
def WellFormed : PrimaryExpression → Prop
  | .identifierPath path => ∀ w ∈ path.names, Whole w
  | .literal l => WellFormedLiteral l
  | .functionCall call =>
    (∀ w ∈ call.path.names, Whole w) ∧ ∀ a ∈ call.arguments, ∀ name ∈ a.name, Whole name
  | .dictionary elements => ∀ e ∈ elements, Whole e.name
  | _ => True

def WellFormedExpression (e : Expression) : Prop := ∀ p, Occurs p e → WellFormed p

section Rules

variable {expression : Parser Expression} (he : Gives expression WellFormedExpression)
include he

theorem gives_primaryExpr : Gives (primaryExpr reals n expression) fun p =>
    WellFormed p ∧ ∀ c ∈ p.children, WellFormedExpression c := by
  refine .firstOf fun p hp => ?_
  simp only [List.mem_cons, List.not_mem_nil, or_false] at hp
  rcases hp with rfl | rfl | rfl | rfl | rfl | rfl | rfl | rfl
  · have hawait : Gives (awaitExpression expression) fun e =>
        WellFormedExpression e.expression ∧ WellFormedExpression e.duration :=
      Gives.any.bind fun _ _ => he.bind fun _ hx => Gives.any.bind fun _ _ => he.bind fun _ hd =>
        .pure ⟨hx, hd⟩
    exact hawait.bind fun _ h => .pure ⟨trivial, List.forall_mem_cons.mpr
      ⟨h.1, List.forall_mem_singleton.mpr h.2⟩⟩
  · have htry : Gives (tryExpression expression) WellFormedExpression := Gives.any.bind fun _ _ => he
    exact htry.bind fun _ h => .pure ⟨trivial, List.forall_mem_singleton.mpr h⟩
  · exact gives_literal.bind fun _ hl => .pure ⟨hl, nofun⟩
  · have hargument : Gives (functionArgument expression) fun a =>
        (∀ name ∈ a.name, Whole name) ∧ WellFormedExpression a.value := by
      have hname : Gives (do let name ← identifier; lit "="; return name) Whole :=
        gives_identifier.bind fun _ hname => Gives.any.bind fun _ _ => .pure hname
      exact hname.option.bind fun _ hname => he.bind fun _ hvalue => .pure ⟨hname, hvalue⟩
    have hcall : Gives (functionCall n expression) fun call => (∀ w ∈ call.path.names, Whole w) ∧
        ∀ a ∈ call.arguments, (∀ name ∈ a.name, Whole name) ∧ WellFormedExpression a.value :=
      gives_identifierPath.bind fun _ hpath => Gives.any.bind fun _ _ => hargument.optional_list.bind
        fun _ harguments => Gives.any.bind fun _ _ => .pure ⟨hpath, harguments⟩
    refine hcall.bind fun call hcall => .pure ⟨⟨hcall.1, fun a ha => (hcall.2 a ha).1⟩, fun c hc => ?_⟩
    obtain ⟨a, ha, rfl⟩ := List.mem_map.mp hc
    exact (hcall.2 a ha).2
  · exact gives_identifierPath.bind fun _ hpath => .pure ⟨hpath, nofun⟩
  · have harray : Gives (array n expression) fun es => ∀ e ∈ es, WellFormedExpression e :=
      Gives.any.bind fun _ _ => he.optional_list.bind fun _ hes => Gives.any.bind fun _ _ => .pure hes
    exact harray.bind fun _ hes => .pure ⟨trivial, hes⟩
  · have hassignment : Gives (assignment expression) fun a => Whole a.name ∧ WellFormedExpression a.value :=
      gives_identifier.bind fun _ hname => Gives.any.bind fun _ _ => he.bind fun _ hvalue =>
        .pure ⟨hname, hvalue⟩
    have hdictionary : Gives (dictionary n expression) fun es =>
        ∀ e ∈ es, Whole e.name ∧ WellFormedExpression e.value :=
      Gives.any.bind fun _ _ => hassignment.optional_list.bind fun _ hes => Gives.any.bind fun _ _ =>
        .pure hes
    refine hdictionary.bind fun es hes => .pure ⟨fun e h => (hes e h).1, fun c hc => ?_⟩
    obtain ⟨e, h, rfl⟩ := List.mem_map.mp hc
    exact (hes e h).2
  · have hparenthesised : Gives (parenthesised expression) WellFormedExpression :=
      Gives.any.bind fun _ _ => he.expect.bind fun _ hx => Gives.any.bind fun _ _ => .pure hx
    exact hparenthesised.bind fun _ hx => .pure ⟨trivial, List.forall_mem_singleton.mpr hx⟩

end Rules

theorem gives_binaryExpr {Term Operator : Type} (table : List (String × Operator)) {term : Parser Term}
    {P : Term → Prop} (h : Gives term P) :
    Gives (binaryExpr n table term) fun e => ∀ a ∈ e.operands, P a := by
  have hterm : Gives (do let op ← symbol table; let term ← term.expect; return ⟨op, term⟩)
      fun o : Operation Term Operator => P o.term :=
    Gives.any.bind fun _ _ => h.expect.bind fun _ hx => .pure hx
  refine h.bind fun first hfirst => hterm.many.bind fun terms hterms => .pure ?_
  refine List.forall_mem_cons.mpr ⟨hfirst, fun a ha => ?_⟩
  obtain ⟨o, ho, rfl⟩ := List.mem_map.mp ha
  exact hterms o ho

theorem gives_expression (n : Nat) : Gives (expression reals n) WellFormedExpression := by
  induction n with
  | zero => exact nofun
  | succ n ih =>
    have hunary : Gives (unaryExpr reals n (expression reals n)) fun u =>
        WellFormed u.primary ∧ ∀ c ∈ u.primary.children, WellFormedExpression c :=
      Gives.any.bind fun _ _ => (gives_primaryExpr ih).bind fun _ hp => .pure hp
    have hlogical := gives_binaryExpr (n := n) logicalOp (gives_binaryExpr (n := n) equalityOp
      (gives_binaryExpr (n := n) relationalOp (gives_binaryExpr (n := n) additiveOp
        (gives_binaryExpr (n := n) multiplicativeOp hunary))))
    refine hlogical.bind fun logical hall => .pure (forall_occurs_iff.mpr fun u hu => ?_)
    simp only [Expression.unaries, List.mem_flatMap] at hu
    obtain ⟨e₁, h₁, e₂, h₂, e₃, h₃, e₄, h₄, hu⟩ := hu
    exact hall e₁ h₁ e₂ h₂ e₃ h₃ e₄ h₄ u hu

/-! ## Statements -/

/-- The words of a statement and those in its expressions, and the numbers. -/
structure WellFormedStatement (s : WorkflowStatement) : Prop where
  names : ∀ w ∈ s.names, Whole w
  expressions : ∀ e ∈ s.expressions, WellFormedExpression e

def WellFormedProgram (p : Program) : Prop := ∀ s, Stands s p → WellFormedStatement s

theorem wellFormed_iff {p : Program} :
    WellFormedProgram p ↔ ∀ s ∈ p, WellFormedStatement s ∧ WellFormedProgram s.children :=
  forall_stands_iff

theorem wellFormed_append {p q : Program} (hp : WellFormedProgram p) (hq : WellFormedProgram q) :
    WellFormedProgram (p ++ q) := fun s hs => (stands_append.mp hs).elim (hp s) (hq s)

/-- What holds of a statement and of those in it. -/
def WellFormedTree (s : WorkflowStatement) : Prop := WellFormedStatement s ∧ WellFormedProgram s.children

theorem wellFormed_simple {s : WorkflowStatement} (hn : ∀ w ∈ s.names, Whole w)
    (he : ∀ e ∈ s.expressions, WellFormedExpression e) (hs : s.children = []) : WellFormedTree s :=
  ⟨⟨hn, he⟩, by rw [hs]; exact wellFormed_iff.mpr nofun⟩

theorem gives_signature : Gives (signature n) fun signature => ∀ w ∈ signature.names, Whole w := by
  have hdeclaration : Gives declaration fun d => ∀ w ∈ [d.name, d.type], Whole w :=
    gives_identifier.bind fun _ hname => Gives.any.bind fun _ _ => gives_identifier.bind fun _ htype =>
      .pure (List.forall_mem_cons.mpr ⟨hname, List.forall_mem_singleton.mpr htype⟩)
  have hreturn : Gives (do lit "->"; identifier.expect) Whole :=
    Gives.any.bind fun _ _ => gives_identifier.expect
  refine Gives.any.bind fun _ _ => hdeclaration.optional_list.bind fun inputs hinputs => Gives.any.bind
    fun _ _ => hreturn.option.bind fun returnType htype => .pure ?_
  refine List.forall_mem_append.mpr ⟨fun w hw => ?_, fun w hw => htype w (Option.mem_toList.mp hw)⟩
  obtain ⟨d, hd, hw⟩ := List.mem_flatMap.mp hw
  exact hinputs d hd w hw

section Blocks

variable {expression : Parser Expression} {statement : Parser WorkflowStatement}
  (he : Gives expression WellFormedExpression) (hs : Gives statement WellFormedTree)

section Scope

include hs

theorem gives_scope : Gives (scope n statement) WellFormedProgram :=
  Gives.any.bind fun _ _ => hs.many.bind fun _ hall => Gives.any.bind fun _ _ =>
    .pure (wellFormed_iff.mpr hall)

include he

theorem gives_ifBlock : Gives (ifBlock n expression statement) fun block =>
    WellFormedTree (.ifBlock block) := by
  have hcondition : Gives (conditionBlock n expression statement) fun b =>
      WellFormedExpression b.condition ∧ WellFormedProgram b.statements :=
    he.bind fun _ hx => (gives_scope hs).bind fun _ hp => .pure ⟨hx, hp⟩
  have helif : Gives (do lit "elif"; conditionBlock n expression statement) fun b =>
      WellFormedExpression b.condition ∧ WellFormedProgram b.statements :=
    Gives.any.bind fun _ _ => hcondition
  have helse : Gives (do lit "else"; scope n statement) WellFormedProgram :=
    Gives.any.bind fun _ _ => gives_scope hs
  refine Gives.any.bind fun _ _ => hcondition.bind fun first hfirst => helif.many.bind fun elifs helifs =>
    helse.option.bind fun last hlast => .pure ⟨⟨nofun, ?_⟩, wellFormed_append hfirst.2
      (wellFormed_append ?_ ?_)⟩
  · refine List.forall_mem_cons.mpr ⟨hfirst.1, fun e he => ?_⟩
    obtain ⟨b, hb, rfl⟩ := List.mem_map.mp he
    exact (helifs b hb).1
  · refine wellFormed_iff.mpr fun s hs => ?_
    obtain ⟨b, hb, hs⟩ := List.mem_flatMap.mp hs
    exact wellFormed_iff.mp (helifs b hb).2 s hs
  · cases last with
    | none => exact wellFormed_iff.mpr nofun
    | some p => exact hlast p rfl

end Scope

theorem gives_operand {s : String} {f : Expression → WorkflowStatement} (he : Gives expression WellFormedExpression)
    (hf : ∀ e, WellFormedExpression e → WellFormedTree (f e)) :
    Gives (do let e ← (do lit s; expression); semicolons n; return f e : Parser _) WellFormedTree :=
  Gives.bind (P := WellFormedExpression) (Gives.any.bind fun _ _ => he) fun e h =>
    Gives.any.bind fun _ _ => .pure (hf e h)

include he hs

theorem gives_alternatives : ∀ p ∈ alternatives n expression statement, Gives p WellFormedTree := by
  have hsingle : ∀ {s : WorkflowStatement} {e : Expression}, s.names = [] → s.expressions = [e] →
      s.children = [] → WellFormedExpression e → WellFormedTree s := fun hn hx hc he =>
    wellFormed_simple (by rw [hn]; exact List.forall_mem_nil _) (by rw [hx]; exact List.forall_mem_singleton.mpr he) hc
  intro p hp
  simp only [alternatives, List.mem_cons, List.not_mem_nil, or_false] at hp
  rcases hp with rfl | rfl | rfl | rfl | rfl | rfl | rfl | rfl | rfl | rfl | rfl
  · have himport : Gives (importStatement n) fun path => ∀ w ∈ path.names, Whole w :=
      Gives.any.bind fun _ _ => gives_identifierPath
    exact himport.bind fun _ hpath => Gives.any.bind fun _ _ => .pure (wellFormed_simple hpath (List.forall_mem_nil _) rfl)
  · have hdefinition : Gives (workflowDefinition n statement) fun w =>
        WellFormedTree (.workflowDefinition w) := by
      refine gives_identifier.bind fun name hname => Gives.any.bind fun _ _ => Gives.any.bind fun _ _ =>
        Gives.any.bind fun _ _ => gives_signature.option.bind fun signature hsignature =>
          (gives_scope hs).bind fun _ hp => .pure ⟨⟨List.forall_mem_cons.mpr ⟨hname, ?_⟩, List.forall_mem_nil _⟩, hp⟩
      cases signature with
      | none => exact List.forall_mem_nil _
      | some signature => exact hsignature signature rfl
    exact hdefinition.bind fun _ hw => Gives.any.bind fun _ _ => .pure hw
  · exact gives_operand he fun _ => hsingle rfl rfl rfl
  · exact gives_operand he fun _ => hsingle rfl rfl rfl
  · exact gives_operand he fun _ => hsingle rfl rfl rfl
  · exact Gives.any.bind fun _ _ => Gives.any.bind fun _ _ => .pure (wellFormed_simple (List.forall_mem_nil _) (List.forall_mem_nil _) rfl)
  · exact (gives_ifBlock he hs).bind fun _ hb => Gives.any.bind fun _ _ => .pure hb
  · have hrepeat : Gives (repeatBlock n statement) fun block => WellFormedTree (.repeatBlock block) :=
      Gives.any.bind fun _ _ => (gives_scope hs).bind fun _ hp => .pure ⟨⟨List.forall_mem_nil _, List.forall_mem_nil _⟩, hp⟩
    exact hrepeat.bind fun _ hb => Gives.any.bind fun _ _ => .pure hb
  · have hdeclaration : Gives (variableDeclaration expression) fun d =>
        WellFormedTree (.variableDeclaration d.1 d.2.1 d.2.2) := by
      have hvalue : Gives (do lit "="; expression) WellFormedExpression := Gives.any.bind fun _ _ => he
      refine gives_identifier.bind fun name hname => Gives.any.bind fun _ _ => gives_identifier.bind
        fun type htype => hvalue.option.bind fun value hvalue => .pure (wellFormed_simple ?_ ?_ rfl)
      · exact List.forall_mem_cons.mpr ⟨hname, List.forall_mem_singleton.mpr htype⟩
      · exact fun e h => hvalue e (Option.mem_toList.mp h)
    exact hdeclaration.bind fun _ hd => Gives.any.bind fun _ _ => .pure hd
  · have hassignment : Gives (assignmentStatement n expression) fun a =>
        WellFormedTree (.assignment a.1 a.2) :=
      gives_identifierPath.bind fun _ hpath => Gives.any.bind fun _ _ => he.bind fun _ hx =>
        .pure (wellFormed_simple hpath (List.forall_mem_singleton.mpr hx) rfl)
    exact hassignment.bind fun _ ha => Gives.any.bind fun _ _ => .pure ha
  · exact he.bind fun _ hx => Gives.any.bind fun _ _ => .pure (hsingle rfl rfl rfl hx)

end Blocks

theorem gives_workflowStatement (n : Nat) : Gives (workflowStatement reals n) WellFormedTree := by
  induction n with
  | zero => exact nofun
  | succ n ih => exact .firstOf (gives_alternatives (gives_expression n) ih)

/-- In a program that is accepted, every identifier is a word of its own, every integer one of 32 bits
and every duration a count of 32 bits. -/
theorem accepted_wellFormed (reals : Reals) (code : String) (p : Program) (h : parse reals code = some p) :
    WellFormedProgram p := by
  unfold parse parseUsing at h
  split at h
  next a rest ha =>
    split at h
    next =>
      cases h
      exact wellFormed_iff.mpr ((gives_workflowStatement _).many ha)
    next => cases h
  next => cases h

theorem accepted_assignment : parse noReals ("x" ++ " = 1;") =
      some [.assignment ⟨"x", []⟩ (Literal.integer 1).toExpression] ∧
    WellFormedProgram [.assignment ⟨"x", []⟩ (Literal.integer 1).toExpression] :=
  have hw : identifier "x".toList = .ok "x" [] := by decide +kernel
  have hs : Unsplit noReals "x" := unsplit_of_prefixes (by decide) (by decide)
  have h := parse_assignment hw hs
  ⟨h, accepted_wellFormed noReals _ _ h⟩

end EzCpp.Flow.Grammar
