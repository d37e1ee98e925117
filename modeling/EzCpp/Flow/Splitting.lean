import EzCpp.Flow.Words

/-!
# Where keywords split words

A word that the identifier rule takes as a whole is not always read as a whole: keywords, operators
and booleans are found without a look at what follows them, and an alternative that begins with one
goes on with the rest of the word. `Unsplit` says of a word that all those alternatives fail, and
`readWhole_iff` that the grammar reads exactly these words as they are meant.
-/

namespace EzCpp.Flow.Grammar

open EzCpp.Lib Ast Parser

variable {α β : Type} {reals : Reals} {u v r : List Char} {w : Identifier} {k n m : Nat}

/-- What the expression rule makes of a text, with fuel for its length. -/
def readExpression (reals : Reals) (t : List Char) : Parsed Expression :=
  expression reals (t.length + 1) t

/-- The keywords of the statements that go on with an expression to their semicolon. -/
def operandKeywords : List String := ["return", "raise", "delay"]

/-- No token splits the word: what follows it is not read as what the token asks for. -/
structure Unsplit (reals : Reals) (w : Identifier) : Prop where
  boolean : ∀ e ∈ Grammar.boolean, ¬ e.1.toList <+: w.toList
  real : ¬ BeginsReal w
  unary : ¬ "not".toList <+: w.toList
  importStatement : ∀ r, w.toList = "import".toList ++ r → identifier r = .fail
  operand : ∀ kw ∈ operandKeywords, ∀ r, w.toList = kw.toList ++ r →
    (∀ e, readExpression reals r ≠ .ok e []) ∧ readExpression reals r ≠ .abort
  ifBlock : ∀ r, w.toList = "if".toList ++ r → readExpression reals r ≠ .abort
  tryExpression : ∀ r, w.toList = "try".toList ++ r → readExpression reals r = .fail
  awaitExpression : ∀ r, w.toList = "await".toList ++ r →
    awaitExpression (expression reals w.toList.length) w.toList = .fail

/-- The word is read as a whole, as an expression and as the left side of an assignment. -/
def ReadWhole (reals : Reals) (w : Identifier) : Prop :=
  parse reals (w ++ ";") = some [.expression (IdentifierPath.toExpression ⟨w, []⟩)] ∧
    parse reals (w ++ " = 1;") = some [.assignment ⟨w, []⟩ (Literal.integer 1).toExpression]

/-! ## Tokens at the beginning of a word -/

theorem lit_word (hu : Word u) (hne : u ≠ []) {s : String} (h : u = s.toList ++ r) :
    lit s (u ++ v) = .ok () (r ++ v) :=
  lit_ok (by rw [hu.skip_append hne, h, List.append_assoc])

/-- A rule that begins with a token fails on a word when what follows the token fails. -/
theorem token_fail (hv : Stop v) (hu : Word u) (hne : u ≠ []) {s : String} (hs : isSharp s)
    {p : Parser α} (h : ∀ r, u = s.toList ++ r → p (r ++ v) = .fail) :
    (do lit s; p) (u ++ v) = .fail := by
  by_cases hp : s.toList <+: u
  · obtain ⟨r, hr⟩ := hp
    exact (bind_ok (lit_word hu hne hr.symm)).trans (h r hr.symm)
  · refine bind_fail (lit_fail ?_)
    rwa [hu.skip_append hne, sharp_prefix_iff hv hu hne hs]

theorem semicolon_fail (hr : Word r) (hv : r = [] → lit ";" v = .fail) : lit ";" (r ++ v) = .fail := by
  by_cases hne : r = []
  · rw [hne]
    exact hv hne
  · refine lit_fail (not_prefix_of_head (p := fun c => !continuesIdentifier c) (by decide) ?_)
    rw [hr.skip_append hne]
    intro c hc
    rw [List.head?_append_of_ne_nil _ hne] at hc
    rw [hr c (List.mem_of_mem_head? hc)]
    rfl

theorem semicolons_fail (hr : Word r) (hv : r = [] → lit ";" v = .fail) :
    semicolons n (r ++ v) = .fail := bind_fail (semicolon_fail hr hv)

theorem lit_nil {s : String} (h : s.toList ≠ []) : lit s [] = .fail :=
  lit_fail fun hp => h (List.prefix_nil.mp hp)

theorem semicolons_ok : semicolons n [';'] = .ok () [] := by
  have hlit : semicolon [';'] = .ok () [] := lit_ok (by decide)
  exact (bind_ok hlit).trans (bind_ok (many_fail (lit_nil (by decide))))

/-! ## The alternatives before assignments and expressions -/

theorem scope_fail (hv : Stop v) (hr : Word r) {p : Parser WorkflowStatement} :
    scope n p (r ++ v) = .fail := bind_fail (sign_fail hv hr (by decide) (by decide))

/-- The expression rule on what follows a token, against the same text by itself. -/
theorem readExpression_append (hv : Stop v) (hu : Word u) {s : String} (hs : isSharp s)
    (h : u = s.toList ++ r) (hn : u.length ≤ n) :
    expression reals n (r ++ v) = (readExpression reals r).append v := by
  have hr : Shorter (r.length + 1) r := ⟨hu.suffix ⟨_, h.symm⟩, Nat.lt_succ_self _⟩
  have hpos := List.length_pos_iff.mpr (ne_nil_of_sharp hs)
  refine agrees_expression hv ?_ (Nat.le_refl _) hr
  rw [h, List.length_append] at hn
  omega

section Statement

variable (hv : Stop v) (hu : Word u) (hne : u ≠ [])
include hv hu hne

theorem operand_fail {s : String} (hs : isSharp s) (hn : u.length ≤ n)
    (h : ∀ r, u = s.toList ++ r →
      (∀ e, readExpression reals r ≠ .ok e []) ∧ readExpression reals r ≠ .abort)
    (f : Expression → WorkflowStatement) :
    (do let e ← (do lit s; expression reals n); semicolons m; return f e : Parser _) (u ++ v) =
      .fail := by
  by_cases hp : s.toList <+: u
  · obtain ⟨r, hr⟩ := hp
    have hread : expression reals n (r ++ v) = (readExpression reals r).append v :=
      readExpression_append hv hu hs hr.symm hn
    have hlit := lit_word (v := v) hu hne hr.symm
    have hrest := h r hr.symm
    cases he : readExpression reals r with
    | ok e r' =>
      rw [he] at hread
      have hr' : Word r' := (hu.suffix ⟨_, hr⟩).suffix (shortens_expression _ he)
      refine (bind_ok ((bind_ok hlit).trans hread)).trans (bind_fail (semicolons_fail hr' ?_))
      rintro rfl
      exact absurd he (hrest.1 e)
    | fail =>
      rw [he] at hread
      exact bind_fail ((bind_ok hlit).trans hread)
    | abort => exact absurd he hrest.2
  · refine bind_fail (bind_fail (lit_fail ?_))
    rwa [hu.skip_append hne, sharp_prefix_iff hv hu hne hs]

theorem ifBlock_fail (hn : u.length ≤ n)
    (h : ∀ r, u = "if".toList ++ r → readExpression reals r ≠ .abort)
    {p : Parser WorkflowStatement} : ifBlock m (expression reals n) p (u ++ v) = .fail := by
  refine token_fail hv hu hne (by decide) fun r hr => ?_
  have hread : expression reals n (r ++ v) = (readExpression reals r).append v :=
    readExpression_append hv hu (by decide) hr hn
  refine bind_fail ?_
  cases he : readExpression reals r with
  | ok e r' =>
    rw [he] at hread
    have hr' : Word r' := (hu.suffix ⟨_, hr.symm⟩).suffix (shortens_expression _ he)
    exact (bind_ok hread).trans (bind_fail (scope_fail hv hr'))
  | fail =>
    rw [he] at hread
    exact bind_fail hread
  | abort => exact absurd he (h r hr)

theorem repeatBlock_fail {p : Parser WorkflowStatement} : repeatBlock m p (u ++ v) = .fail :=
  token_fail hv hu hne (by decide) fun _ hr =>
    bind_fail (scope_fail hv (hu.suffix ⟨_, hr.symm⟩))

theorem breakStatement_fail (hbreak : u ≠ "break".toList) :
    (do breakStatement; semicolons m; return .breakStatement : Parser WorkflowStatement) (u ++ v) =
      .fail := by
  by_cases hp : "break".toList <+: u
  · obtain ⟨r, hr⟩ := hp
    have hsymbol : breakStatement (u ++ v) = .ok () (r ++ v) :=
      symbol_ok (w := "break") (List.mem_singleton.mpr rfl) (fun _ _ _ => rfl)
        (by rw [hu.skip_append hne, ← hr, List.append_assoc]) fun e he _ => by
          obtain rfl := List.mem_singleton.mp he
          exact List.prefix_refl _
    refine (bind_ok hsymbol).trans (bind_fail (semicolons_fail (hu.suffix ⟨_, hr⟩) ?_))
    rintro rfl
    exact absurd (by simpa using hr.symm) hbreak
  · refine bind_fail (symbol_fail fun e he => ?_)
    rw [List.mem_singleton.mp he, hu.skip_append hne, sharp_prefix_iff hv hu hne (by decide)]
    exact hp

theorem importStatement_fail (h : ∀ r, u = "import".toList ++ r → identifier r = .fail) :
    importStatement m (u ++ v) = .fail :=
  token_fail hv hu hne (by decide) fun r hr => by
    refine identifierPath_fail ?_
    rw [agrees_identifier hv (hu.suffix ⟨_, hr.symm⟩), h r hr, Parsed.append]

end Statement

/-! ## A word that no token splits -/

section Accepted

variable (hw : identifier w.toList = .ok w [])
include hw

theorem identifier_append (hv : Stop v) : identifier (w.toList ++ v) = .ok w v := by
  rw [agrees_identifier hv (word_of_identifier hw).2.1, hw]
  rfl

theorem identifierPath_append (hv : Stop v) : identifierPath n (w.toList ++ v) = .ok ⟨w, []⟩ v :=
  (bind_ok (identifier_append hw hv)).trans
    (bind_ok (many_fail (bind_fail (lit_fail (hv.not_prefix (by decide))))))

theorem ne_break : w.toList ≠ "break".toList := by
  intro h
  obtain ⟨-, -, -, hr⟩ := of_identifier_ok hw
  rw [h] at hr
  have hreserved : reserved "break".toList = .ok () [] := rfl
  rw [hreserved] at hr
  cases hr

theorem symbol_unaryOp_fail (hv : Stop v) (hnot : ¬ "not".toList <+: w.toList) :
    symbol unaryOp (w.toList ++ v) = .fail := by
  obtain ⟨-, hu, hne⟩ := word_of_identifier hw
  refine symbol_fail fun e he => ?_
  rw [hu.skip_append hne]
  have hsharp : ∀ e ∈ unaryOp, isSharp e.1 := by decide
  rw [sharp_prefix_iff hv hu hne (hsharp e he)]
  have hall : ∀ e ∈ unaryOp, e.1 = "not" ∨
      (e.1.toList.head?.any fun c => !continuesIdentifier c) = true := by decide
  rcases hall e he with heq | hhead
  · rw [heq]
    exact hnot
  · refine not_prefix_of_head hhead fun c hc => ?_
    rw [hu c (List.mem_of_mem_head? hc)]
    rfl

theorem primaryExpr_accepted (hv : Stop v) (hs : Unsplit reals w) (hn : w.toList.length ≤ n) :
    primaryExpr reals n (expression reals n) (w.toList ++ v) =
      .ok (.identifierPath ⟨w, []⟩) v := by
  obtain ⟨hspelled, hu, hne⟩ := word_of_identifier hw
  have hawait : awaitExpression (expression reals n) (w.toList ++ v) = .fail := by
    have hexpression : Agrees v (Shorter w.toList.length) (expression reals n)
        (expression reals w.toList.length) := agrees_expression hv hn (Nat.le_refl _)
    have h := agrees_awaitExpression hv hexpression (shortens_expression _) ⟨hu, Nat.lt_succ_self _⟩
    rw [h]
    by_cases hp : "await".toList <+: w.toList
    · obtain ⟨r, hr⟩ := hp
      rw [hs.awaitExpression r hr.symm, Parsed.append]
    · rw [awaitExpression_fail (lit_fail (by rwa [hu.skip])), Parsed.append]
  have htry : tryExpression (expression reals n) (w.toList ++ v) = .fail :=
    token_fail hv hu hne (by decide) fun r hr => by
      rw [readExpression_append hv hu (by decide) hr hn, hs.tryExpression r hr, Parsed.append]
  have hliteral : literal reals (w.toList ++ v) = .fail :=
    literal_word_fail (hu.skip_append hne) hspelled hv.ends hs.boolean hs.real
  have hpath := identifierPath_append (n := n) hw hv
  have hcall : functionCall n (expression reals n) (w.toList ++ v) = .fail :=
    (bind_ok hpath).trans (bind_fail (lit_fail (hv.not_prefix (by decide))))
  rw [primaryExpr, firstOf_fail (bind_fail hawait), firstOf_fail (bind_fail htry),
    firstOf_fail (bind_fail hliteral), firstOf_fail (bind_fail hcall)]
  exact firstOf_ok (bind_ok hpath)

/-- Only the alternatives for assignments and expressions are left. -/
theorem workflowStatement_word (hv : Stop v) (hs : Unsplit reals w) (hn : w.toList.length ≤ n) :
    workflowStatement reals (n + 1) (w.toList ++ v) = firstOf [
      do
        let (path, e) ← assignmentStatement n (expression reals n)
        semicolons n
        return .assignment path e,
      do let e ← expression reals n; semicolons n; return .expression e] (w.toList ++ v) := by
  obtain ⟨-, hu, hne⟩ := word_of_identifier hw
  have hcolon : lit ":" v = .fail := lit_fail (hv.not_prefix (by decide))
  have hid := identifier_append hw hv
  have hdefinition : workflowDefinition n (workflowStatement reals n) (w.toList ++ v) = .fail :=
    (bind_ok hid).trans (bind_fail hcolon)
  have hdeclaration : variableDeclaration (expression reals n) (w.toList ++ v) = .fail :=
    (bind_ok hid).trans (bind_fail hcolon)
  rw [workflowStatement, alternatives, returnStatement, raiseStatement, delayStatement,
    firstOf_fail (bind_fail (importStatement_fail hv hu hne hs.importStatement)),
    firstOf_fail (bind_fail hdefinition),
    firstOf_fail (operand_fail hv hu hne (by decide) hn (hs.operand "return" (by decide)) _),
    firstOf_fail (operand_fail hv hu hne (by decide) hn (hs.operand "raise" (by decide)) _),
    firstOf_fail (operand_fail hv hu hne (by decide) hn (hs.operand "delay" (by decide)) _),
    firstOf_fail (breakStatement_fail hv hu hne (ne_break hw)),
    firstOf_fail (bind_fail (ifBlock_fail hv hu hne hn hs.ifBlock)),
    firstOf_fail (bind_fail (repeatBlock_fail hv hu hne)),
    firstOf_fail (bind_fail hdeclaration)]

end Accepted

/-! ## Programs of one statement -/

theorem workflowStatement_nil : workflowStatement reals n [] = .fail := by
  cases n with
  | zero => rfl
  | succ n =>
    have hid : identifier [] = .fail := identifier_fail nofun
    have himport : importStatement n [] = .fail := bind_fail (lit_nil (by decide))
    have hdefinition : workflowDefinition n (workflowStatement reals n) [] = .fail := bind_fail hid
    have hoperand : ∀ kw ∈ operandKeywords, (do lit kw; expression reals n) [] = .fail := by
      have hne : ∀ kw ∈ operandKeywords, kw.toList ≠ [] := by decide
      exact fun kw hkw => bind_fail (lit_nil (hne kw hkw))
    have hbreak : breakStatement [] = .fail := symbol_fail (by decide)
    have hif : ifBlock n (expression reals n) (workflowStatement reals n) [] = .fail :=
      bind_fail (lit_nil (by decide))
    have hrepeat : repeatBlock n (workflowStatement reals n) [] = .fail :=
      bind_fail (lit_nil (by decide))
    have hdeclaration : variableDeclaration (expression reals n) [] = .fail := bind_fail hid
    have hassignment : assignmentStatement n (expression reals n) [] = .fail :=
      bind_fail (bind_fail hid)
    have hexpression : expression reals n [] = .fail := expression_fail n nofun
    rw [workflowStatement, alternatives, returnStatement, raiseStatement, delayStatement,
      firstOf_fail (bind_fail himport), firstOf_fail (bind_fail hdefinition),
      firstOf_fail (bind_fail (hoperand "return" (by decide))),
      firstOf_fail (bind_fail (hoperand "raise" (by decide))),
      firstOf_fail (bind_fail (hoperand "delay" (by decide))), firstOf_fail (bind_fail hbreak),
      firstOf_fail (bind_fail hif), firstOf_fail (bind_fail hrepeat),
      firstOf_fail (bind_fail hdeclaration), firstOf_fail (bind_fail hassignment),
      firstOf_fail (bind_fail hexpression)]
    rfl

theorem parse_eq {code : String} {s : WorkflowStatement}
    (h : workflowStatement reals (code.toList.length + 1) code.toList = .ok s []) :
    parse reals code = some [s] := by
  have hprogram : program reals (code.toList.length + 1) code.toList = .ok [s] [] :=
    many_ok h (many_fail workflowStatement_nil)
  simp only [parse, parseUsing, hprogram, skip_nil, if_pos]

theorem of_parse_eq {code : String} {s : WorkflowStatement} (h : parse reals code = some [s]) :
    ∃ r, workflowStatement reals (code.toList.length + 1) code.toList = .ok s r := by
  unfold parse parseUsing at h
  split at h
  next a rest ha =>
    split at h
    next =>
      cases h
      rcases of_many_ok ha with ⟨hnil, -⟩ | ⟨_, _, r, _, heq, -, hs, -⟩
      · cases hnil
      · cases heq
        exact ⟨r, hs⟩
    next => cases h
  next => cases h

/-! ## Reading a word that no token splits -/

/-- The expression of `w = 1;` -/
theorem expression_one : expression reals (n + 1) " 1;".toList =
    .ok (Literal.integer 1).toExpression [';'] := by
  have hskip : skip " 1;".toList = (toString 1).toList ++ [';'] := by decide
  have hone : literal reals " 1;".toList = .ok (.integer 1) [';'] := by
    have hdigit : NoDigit [';'] := fun c hc => by
      cases hc
      rfl
    have hfraction : NoFraction [';'] := fun c hc => by
      cases hc
      decide
    rw [literal_number hskip (by decide) hdigit hfraction]
    rfl
  have hprimary : primaryExpr reals n (expression reals n) " 1;".toList =
      .ok (.literal (.integer 1)) [';'] := by
    have hawait : lit "await" " 1;".toList = .fail := lit_fail (by decide)
    have htry : lit "try" " 1;".toList = .fail := lit_fail (by decide)
    rw [primaryExpr, firstOf_fail (bind_fail (awaitExpression_fail hawait)),
      firstOf_fail (bind_fail (tryExpression_fail htry))]
    exact firstOf_ok (bind_ok hone)
  exact expression_of_primary stop_semicolon.noOperator (symbol_fail (by decide)) hprimary

section Reading

variable (hw : identifier w.toList = .ok w []) (hs : Unsplit reals w)
include hw hs

theorem expression_accepted (hv : Stop v) (hn : w.toList.length ≤ n) :
    expression reals (n + 1) (w.toList ++ v) = .ok (IdentifierPath.toExpression ⟨w, []⟩) v :=
  expression_of_primary hv.noOperator (symbol_unaryOp_fail hw hv hs.unary) (primaryExpr_accepted hw hv hs hn)

theorem parse_expression : parse reals (w ++ ";") =
    some [.expression (IdentifierPath.toExpression ⟨w, []⟩)] := by
  have hcode : (w ++ ";").toList = w.toList ++ [';'] := String.toList_append
  have hassignment : assignmentStatement (w.toList.length + 1)
      (expression reals (w.toList.length + 1)) (w.toList ++ [';']) = .fail :=
    (bind_ok (identifierPath_append hw stop_semicolon)).trans (bind_fail (lit_fail (by decide)))
  have hexpression := expression_accepted hw hs stop_semicolon (Nat.le_refl _)
  refine parse_eq ?_
  rw [hcode, List.length_append, workflowStatement_word hw stop_semicolon hs (by simp)]
  exact (firstOf_fail (bind_fail hassignment)).trans
    (firstOf_ok ((bind_ok hexpression).trans (bind_ok semicolons_ok)))

theorem parse_assignment : parse reals (w ++ " = 1;") =
    some [.assignment ⟨w, []⟩ (Literal.integer 1).toExpression] := by
  have hcode : (w ++ " = 1;").toList = w.toList ++ (" = ".toList ++ ['1', ';']) :=
    String.toList_append
  have hv : Stop (" = ".toList ++ ['1', ';']) := stop_equals
  have hequals : lit "=" (" = ".toList ++ ['1', ';']) = .ok () " 1;".toList := lit_ok (by decide)
  have hassignment : assignmentStatement (w.toList.length + 5)
      (expression reals (w.toList.length + 5)) (w.toList ++ (" = ".toList ++ ['1', ';'])) =
        .ok (⟨w, []⟩, (Literal.integer 1).toExpression) [';'] :=
    (bind_ok (identifierPath_append hw hv)).trans ((bind_ok hequals).trans (bind_ok expression_one))
  refine parse_eq ?_
  rw [hcode, List.length_append]
  refine (workflowStatement_word hw hv hs (by simp)).trans ?_
  exact firstOf_ok ((bind_ok hassignment).trans (bind_ok semicolons_ok))

end Reading

/-! ## What a word that is read as a whole tells -/

theorem of_append_fail {x : Parsed α} (h : x.append v = .fail) : x = .fail := by
  cases x with
  | ok a r => cases h
  | fail => rfl
  | abort => cases h

theorem of_symbol_fail {table : List (String × α)} {t : List Char} (h : symbol table t = .fail) :
    ∀ e ∈ table, ¬ e.1.toList <+: skip t := by
  have hs : symbols table (skip t) = .fail := h
  unfold symbols at hs
  split at hs
  next => cases hs
  next hnone => exact longest_eq_none_iff.mp hnone

/-- An alternative for statements of another kind has failed. -/
theorem of_firstOf_statement {p : Parser α} {f : α → WorkflowStatement} {q : Parser Unit}
    {ps : List (Parser WorkflowStatement)} {t : List Char} {a : WorkflowStatement}
    (h : firstOf ((do let x ← p; q; return f x) :: ps) t = .ok a r) (hf : ∀ x, f x ≠ a) :
    (do let x ← p; q; return f x : Parser WorkflowStatement) t = .fail ∧ firstOf ps t = .ok a r := by
  rcases of_firstOf_cons h with h | h
  · obtain ⟨x, _, -, h⟩ := of_bind_ok h
    obtain ⟨_, _, -, h⟩ := of_bind_ok h
    cases h
    exact absurd rfl (hf x)
  · exact h

theorem symbols_ne_abort (table : List (String × α)) (t : List Char) : symbols table t ≠ .abort := by
  unfold symbols
  split <;> exact nofun

theorem bind_ne_abort {p : Parser α} {f : α → Parser β} {t : List Char} (hp : p t ≠ .abort)
    (hf : ∀ a u, f a u ≠ .abort) : (p >>= f) t ≠ .abort := by
  cases h : p t with
  | ok a u =>
    rw [bind_ok h]
    exact hf a u
  | fail =>
    rw [bind_fail h]
    exact nofun
  | abort => exact absurd h hp

theorem notAhead_ne_abort {p : Parser α} {t : List Char} (hp : p t ≠ .abort) :
    notAhead p t ≠ .abort := by
  unfold notAhead
  split
  · exact nofun
  · exact nofun
  next h => exact absurd h hp

theorem identifier_ne_abort (t : List Char) : identifier t ≠ .abort :=
  bind_ne_abort (notAhead_ne_abort (bind_ne_abort (symbols_ne_abort _ _) fun _ u =>
    notAhead_ne_abort (identifierBase_ne_abort u))) fun _ u => identifierBase_ne_abort (skip u)

/-- The rules for primary expressions before that for paths have failed. -/
theorem primaryExpr_of_path {path : IdentifierPath} {t : List Char}
    (h : primaryExpr reals n (expression reals n) t = .ok (.identifierPath path) r) :
    awaitExpression (expression reals n) t = .fail ∧
      tryExpression (expression reals n) t = .fail ∧ literal reals t = .fail := by
  rcases of_firstOf_cons h with h | ⟨hawait, h⟩
  · obtain ⟨_, _, -, h⟩ := of_bind_ok h
    cases h
  rcases of_firstOf_cons h with h | ⟨htry, h⟩
  · obtain ⟨_, _, -, h⟩ := of_bind_ok h
    cases h
  rcases of_firstOf_cons h with h | ⟨hliteral, h⟩
  · obtain ⟨_, _, -, h⟩ := of_bind_ok h
    cases h
  exact ⟨of_bind_fail hawait nofun, of_bind_fail htry nofun, of_bind_fail hliteral nofun⟩

theorem of_expression_primary {p : PrimaryExpression} {t : List Char}
    (h : expression reals (n + 1) t = .ok p.toExpression r) :
    symbol unaryOp t = .fail ∧ primaryExpr reals n (expression reals n) t = .ok p r := by
  obtain ⟨_, _, h, hr⟩ := of_bind_ok h
  cases hr
  have hunary : unaryExpr reals n (expression reals n) t = .ok (.mk none p) r :=
    of_binaryExpr_nil (of_binaryExpr_nil (of_binaryExpr_nil (of_binaryExpr_nil
      (of_binaryExpr_nil h))))
  obtain ⟨_, _, hop, h⟩ := of_bind_ok hunary
  obtain ⟨_, _, hp, hr⟩ := of_bind_ok h
  cases hr
  rcases of_option_ok hop with ⟨_, hnone, -⟩ | ⟨-, hfail, rfl⟩
  · cases hnone
  · exact ⟨hfail, hp⟩

/-- The alternatives that have failed where a statement is an expression alone. -/
theorem alternatives_of_expression {t : List Char} {e : Expression}
    (h : workflowStatement reals (n + 1) t = .ok (.expression e) r) :
    (do let path ← importStatement n; semicolons n; return .importStatement path :
      Parser WorkflowStatement) t = .fail ∧
    (∀ kw ∈ operandKeywords, ∃ f : Expression → WorkflowStatement,
      (do let e ← (do lit kw; expression reals n); semicolons n; return f e : Parser _) t = .fail) ∧
    ifBlock n (expression reals n) (workflowStatement reals n) t ≠ .abort ∧
    ∃ u, expression reals n t = .ok e u := by
  rw [workflowStatement, alternatives] at h
  obtain ⟨himport, h⟩ := of_firstOf_statement h nofun
  obtain ⟨-, h⟩ := of_firstOf_statement h nofun
  obtain ⟨hreturn, h⟩ := of_firstOf_statement h nofun
  obtain ⟨hraise, h⟩ := of_firstOf_statement h nofun
  obtain ⟨hdelay, h⟩ := of_firstOf_statement h nofun
  obtain ⟨-, h⟩ := of_firstOf_statement h nofun
  obtain ⟨hif, h⟩ := of_firstOf_statement h nofun
  obtain ⟨-, h⟩ := of_firstOf_statement h nofun
  obtain ⟨-, h⟩ := of_firstOf_statement h nofun
  obtain ⟨-, h⟩ := of_firstOf_statement h nofun
  refine ⟨himport, fun kw hkw => ?_, fun habort => ?_, ?_⟩
  · simp only [operandKeywords, List.mem_cons, List.not_mem_nil, or_false] at hkw
    rcases hkw with rfl | rfl | rfl
    · exact ⟨_, hreturn⟩
    · exact ⟨_, hraise⟩
    · exact ⟨_, hdelay⟩
  · rw [bind_abort habort] at hif
    cases hif
  · rcases of_firstOf_cons h with h | ⟨-, h⟩
    · obtain ⟨e, u, h, hr⟩ := of_bind_ok h
      obtain ⟨_, _, -, hr⟩ := of_bind_ok hr
      cases hr
      exact ⟨u, h⟩
    · cases h

section Split

variable (hw : identifier w.toList = .ok w [])
include hw

theorem import_of_fail (h : (do let path ← importStatement m; semicolons n; return .importStatement path :
    Parser WorkflowStatement) (w.toList ++ [';']) = .fail) :
    ∀ r, w.toList = "import".toList ++ r → identifier r = .fail := by
  intro r hr
  obtain ⟨-, hu, hne⟩ := word_of_identifier hw
  have hrest : Word r := hu.suffix ⟨_, hr.symm⟩
  cases hid : identifier r with
  | ok front r' =>
    obtain rfl := leads_identifier hrest hid
    have hfront : identifier front.toList = .ok front [] := by
      obtain ⟨hskip, -, -, -⟩ := of_identifier_ok hid
      rw [hrest.skip, List.append_nil] at hskip
      rwa [hskip] at hid
    have hpath : importStatement m (w.toList ++ [';']) = .ok ⟨front, []⟩ [';'] := by
      refine (bind_ok (lit_word hu hne hr)).trans ?_
      obtain ⟨hskip, -, -, -⟩ := of_identifier_ok hid
      rw [hrest.skip, List.append_nil] at hskip
      rw [hskip]
      exact identifierPath_append hfront stop_semicolon
    rw [bind_ok hpath, bind_ok semicolons_ok] at h
    cases h
  | fail => rfl
  | abort => exact absurd hid (identifier_ne_abort r)

theorem operand_of_fail {s : String} (hs : isSharp s) (hn : w.toList.length ≤ n)
    {f : Expression → WorkflowStatement}
    (h : (do let e ← (do lit s; expression reals n); semicolons m; return f e : Parser _)
      (w.toList ++ [';']) = .fail) :
    ∀ r, w.toList = s.toList ++ r →
      (∀ e, readExpression reals r ≠ .ok e []) ∧ readExpression reals r ≠ .abort := by
  intro r hr
  obtain ⟨-, hu, hne⟩ := word_of_identifier hw
  have hread : expression reals n (r ++ [';']) = (readExpression reals r).append [';'] :=
    readExpression_append stop_semicolon hu hs hr hn
  have hlit := lit_word (v := [';']) hu hne hr
  refine ⟨fun e he => ?_, fun he => ?_⟩
  · rw [he] at hread
    rw [bind_ok ((bind_ok hlit).trans hread), List.nil_append, bind_ok semicolons_ok] at h
    cases h
  · rw [he] at hread
    rw [bind_abort ((bind_ok hlit).trans hread)] at h
    cases h

theorem ifBlock_of_ne_abort (hn : w.toList.length ≤ n) {p : Parser WorkflowStatement}
    (h : ifBlock m (expression reals n) p (w.toList ++ [';']) ≠ .abort) :
    ∀ r, w.toList = "if".toList ++ r → readExpression reals r ≠ .abort := by
  intro r hr he
  obtain ⟨-, hu, hne⟩ := word_of_identifier hw
  have hread : expression reals n (r ++ [';']) = (readExpression reals r).append [';'] :=
    readExpression_append stop_semicolon hu (by decide) hr hn
  rw [he] at hread
  have hcondition : conditionBlock m (expression reals n) p (r ++ [';']) = .abort := bind_abort hread
  exact h ((bind_ok (lit_word hu hne hr)).trans (bind_abort hcondition))

theorem literal_of_fail (h : literal reals (w.toList ++ [';']) = .fail) :
    (∀ e ∈ boolean, ¬ e.1.toList <+: w.toList) ∧ ¬ BeginsReal w := by
  obtain ⟨hspelled, hu, -⟩ := word_of_identifier hw
  have hliteral : literal reals w.toList = .fail :=
    of_append_fail ((agrees_literal stop_semicolon hu).symm.trans h)
  have hskip : skip w.toList = w.toList ++ [] := by rw [hu.skip, List.append_nil]
  constructor
  · have hboolean : symbol boolean w.toList = .fail :=
      of_bind_fail (of_firstOf_fail hliteral (do let b ← symbol boolean; return .boolean b) (by simp))
        nofun
    rw [← hu.skip]
    exact of_symbol_fail hboolean
  · intro hreal
    obtain ⟨r, hr, -⟩ := stuck_of_beginsReal hliteral hskip hspelled hreal
    rw [skip_nil] at hr
    cases hr

theorem unsplit_of_parse (h : parse reals (w ++ ";") =
    some [.expression (IdentifierPath.toExpression ⟨w, []⟩)]) : Unsplit reals w := by
  obtain ⟨-, hu, hne⟩ := word_of_identifier hw
  obtain ⟨r, h⟩ := of_parse_eq h
  have hcode : (w ++ ";").toList = w.toList ++ [';'] := String.toList_append
  rw [hcode, List.length_append] at h
  have hn : w.toList.length ≤ w.toList.length + 1 := Nat.le_succ _
  have hlast := Nat.le_refl w.toList.length
  obtain ⟨himport, hoperand, hif, _, h⟩ := alternatives_of_expression h
  obtain ⟨hunary, h⟩ := of_expression_primary h
  obtain ⟨hawait, htry, hliteral⟩ := primaryExpr_of_path h
  obtain ⟨hboolean, hreal⟩ := literal_of_fail hw hliteral
  constructor
  case boolean => exact hboolean
  case real => exact hreal
  case unary =>
    intro hnot
    refine of_symbol_fail hunary ("not", .not) (by decide) ?_
    rw [hu.skip_append hne]
    exact hnot.trans (List.prefix_append _ _)
  case importStatement => exact import_of_fail hw himport
  case operand =>
    have hsharp : ∀ kw ∈ operandKeywords, isSharp kw := by decide
    intro kw hkw
    obtain ⟨f, hfail⟩ := hoperand kw hkw
    exact operand_of_fail hw (hsharp kw hkw) hn hfail
  case ifBlock => exact ifBlock_of_ne_abort hw hn hif
  case tryExpression =>
    intro r hr
    have hread : expression reals _ (r ++ [';']) = (readExpression reals r).append [';'] :=
      readExpression_append stop_semicolon hu (by decide : isSharp "try") hr hlast
    have hrest := (bind_ok (f := fun _ => expression reals w.toList.length)
      (lit_word hu hne hr)).symm.trans htry
    exact of_append_fail (hread.symm.trans hrest)
  case awaitExpression =>
    intro r hr
    have hexpression : Agrees [';'] (Shorter w.toList.length) (expression reals _)
        (expression reals _) := agrees_expression stop_semicolon hlast hlast
    have hagree := agrees_awaitExpression stop_semicolon hexpression (shortens_expression _)
      ⟨hu, Nat.lt_succ_self _⟩
    exact of_append_fail (hagree.symm.trans hawait)

end Split

/-- **A word is read as a whole exactly when no token splits it.** -/
theorem readWhole_iff (reals : Reals) (w : Identifier) (hw : identifier w.toList = .ok w []) :
    ReadWhole reals w ↔ Unsplit reals w :=
  ⟨fun h => unsplit_of_parse hw h.1, fun hs => ⟨parse_expression hw hs, parse_assignment hw hs⟩⟩

/-- The tokens that can split a word, but for the numbers that are spelled with letters. -/
def splitters : List String :=
  ["true", "false", "not", "import", "return", "raise", "delay", "if", "try", "await"]

/-- A word that begins with none of them is read as a whole, whatever comes after. -/
theorem unsplit_of_prefixes (h : ∀ s ∈ splitters, ¬ s.toList <+: w.toList) (hreal : ¬ BeginsReal w) :
    Unsplit reals w where
  boolean e he :=
    have hall : ∀ e ∈ boolean, e.1 ∈ splitters := by decide
    h e.1 (hall e he)
  real := hreal
  unary := h "not" (by decide)
  importStatement r hr := absurd ⟨r, hr.symm⟩ (h "import" (by decide))
  operand kw hkw r hr :=
    have hall : ∀ kw ∈ operandKeywords, kw ∈ splitters := by decide
    absurd ⟨r, hr.symm⟩ (h kw (hall kw hkw))
  ifBlock r hr := absurd ⟨r, hr.symm⟩ (h "if" (by decide))
  tryExpression r hr := absurd ⟨r, hr.symm⟩ (h "try" (by decide))
  awaitExpression r hr := absurd ⟨r, hr.symm⟩ (h "await" (by decide))

/-- `importif` begins with a keyword, but what follows it is no path. -/
theorem importif_whole : identifier "importif".toList = .ok "importif" [] ∧
    ReadWhole noReals "importif" := by
  have hw : identifier "importif".toList = .ok "importif" [] := by decide +kernel
  have hother : ∀ s ∈ splitters, s ≠ "import" → ¬ s.toList <+: "importif".toList := by decide
  refine ⟨hw, (readWhole_iff noReals "importif" hw).mpr ?_⟩
  constructor
  case boolean => decide
  case real => decide
  case unary => decide
  case importStatement =>
    intro r hr
    obtain rfl : r = "if".toList := by simpa using hr.symm
    decide +kernel
  case operand =>
    have hall : ∀ kw ∈ operandKeywords, kw ∈ splitters ∧ kw ≠ "import" := by decide
    intro kw hkw r hr
    exact absurd ⟨r, hr.symm⟩ (hother kw (hall kw hkw).1 (hall kw hkw).2)
  case ifBlock => exact fun r hr => absurd ⟨r, hr.symm⟩ (hother "if" (by decide) (by decide))
  case tryExpression => exact fun r hr => absurd ⟨r, hr.symm⟩ (hother "try" (by decide) (by decide))
  case awaitExpression =>
    exact fun r hr => absurd ⟨r, hr.symm⟩ (hother "await" (by decide) (by decide))

/-- `important;` is read as the import of `ant`. -/
theorem important_split : identifier "important".toList = .ok "important" [] ∧
    ¬ ReadWhole noReals "important" := by
  have hw : identifier "important".toList = .ok "important" [] := by decide +kernel
  refine ⟨hw, fun h => ?_⟩
  have hant : identifier "ant".toList = .fail :=
    (unsplit_of_parse hw h.1).importStatement "ant".toList (by decide)
  exact absurd hant (by decide +kernel)

end EzCpp.Flow.Grammar
