import EzCpp.Flow.Greedy

/-!
# Reading printed programs

The tokens of statements, and the text of a program with a blank between two of them. A statement is
read wherever what follows it is neither a semicolon nor another branch of an `if`: so are statements
one after the other, up to the brace that closes a scope (`reads_statement`).
-/

namespace EzCpp.Flow.Ast

/-! ## The parts of a statement -/

/-- The statements in the scopes of a statement. -/
def WorkflowStatement.children : WorkflowStatement → List WorkflowStatement
  | .ifBlock block =>
    block.ifBlock.statements ++ (block.elifBlocks.flatMap ConditionBlock.statements ++ block.elseBlock)
  | .repeatBlock block => block.scope
  | .workflowDefinition definition => definition.statements
  | _ => []

def WorkflowStatement.expressions : WorkflowStatement → List Expression
  | .variableDeclaration _ _ e => e.toList
  | .assignment _ e => [e]
  | .delay e => [e]
  | .returnStatement e => [e]
  | .raise e => [e]
  | .expression e => [e]
  | .ifBlock block => block.ifBlock.condition :: block.elifBlocks.map ConditionBlock.condition
  | _ => []

def IdentifierPath.names (path : IdentifierPath) : List Identifier := path.front :: path.properties

def Signature.names (signature : Signature) : List Identifier :=
  signature.inputs.flatMap (fun d => [d.name, d.type]) ++ signature.returnType.toList

def WorkflowStatement.names : WorkflowStatement → List Identifier
  | .importStatement path => path.names
  | .variableDeclaration name type _ => [name, type]
  | .assignment path _ => path.names
  | .workflowDefinition definition =>
    definition.name :: definition.signature.elim [] Signature.names
  | _ => []

/-- `s` stands somewhere in a program. -/
inductive Stands (s : WorkflowStatement) : Program → Prop
  | here {p : Program} (hs : s ∈ p) : Stands s p
  | within {p : Program} {s' : WorkflowStatement} (hs' : s' ∈ p) (h : Stands s s'.children) : Stands s p

theorem forall_stands_iff {P : WorkflowStatement → Prop} {p : Program} :
    (∀ s, Stands s p → P s) ↔ ∀ s ∈ p, P s ∧ ∀ s', Stands s' s.children → P s' := by
  constructor
  · exact fun h s hs => ⟨h s (.here hs), fun s' hs' => h s' (.within hs hs')⟩
  · intro h s hs
    cases hs with
    | here hs => exact (h s hs).1
    | within hs' hs => exact (h _ hs').2 s hs

theorem stands_append {s : WorkflowStatement} {p q : Program} :
    Stands s (p ++ q) ↔ Stands s p ∨ Stands s q := by
  constructor
  · intro h
    cases h with
    | here hs => exact (List.mem_append.mp hs).imp .here .here
    | within hs' h => exact (List.mem_append.mp hs').imp (.within · h) (.within · h)
  · rintro (h | h)
    · cases h with
      | here hs => exact .here (List.mem_append_left _ hs)
      | within hs' h => exact .within (List.mem_append_left _ hs') h
    · cases h with
      | here hs => exact .here (List.mem_append_right _ hs)
      | within hs' h => exact .within (List.mem_append_right _ hs') h

theorem Stands.of_mem {p : Program} {s s' : WorkflowStatement} (hs : s ∈ p) (h : Stands s' [s]) :
    Stands s' p := by
  cases h with
  | here h => exact List.mem_singleton.mp h ▸ .here hs
  | within hs' h => exact .within (List.mem_singleton.mp hs' ▸ hs) h

end EzCpp.Flow.Ast

namespace EzCpp.Flow.Grammar

open EzCpp.Lib Ast Parser

variable {reals : Reals} {n : Nat} {t : List Char} {rest : List String}

/-! ## Tokens -/

def declarationTokens (d : Declaration) : List String := [d.name, ":", d.type]

def returnTypeTokens : Option Identifier → List String
  | none => []
  | some type => ["->", type]

def signatureTokens : Option Signature → List String
  | none => []
  | some ⟨inputs, returnType⟩ =>
    "(" :: (commas (inputs.map declarationTokens) ++ ")" :: returnTypeTokens returnType)

mutual

def statementTokens : WorkflowStatement → List String
  | .importStatement path => "import" :: (pathTokens path ++ [";"])
  | .variableDeclaration name type none => [name, ":", type, ";"]
  | .variableDeclaration name type (some e) => name :: ":" :: type :: "=" :: (expressionTokens e ++ [";"])
  | .assignment path e => pathTokens path ++ "=" :: (expressionTokens e ++ [";"])
  | .delay e => "delay" :: (expressionTokens e ++ [";"])
  | .returnStatement e => "return" :: (expressionTokens e ++ [";"])
  | .raise e => "raise" :: (expressionTokens e ++ [";"])
  | .breakStatement => ["break", ";"]
  | .expression e => expressionTokens e ++ [";"]
  | .ifBlock ⟨⟨condition, statements⟩, elifBlocks, elseBlock⟩ =>
    "if" :: (expressionTokens condition ++ "\x7b" :: (programTokens statements ++
      "\x7d" :: (elifTokens elifBlocks ++ elseTokens elseBlock)))
  | .repeatBlock ⟨scope⟩ => "repeat" :: "\x7b" :: (programTokens scope ++ ["\x7d"])
  | .workflowDefinition ⟨name, signature, statements⟩ =>
    name :: ":" :: "workflow" :: "=" :: (signatureTokens signature ++
      "\x7b" :: (programTokens statements ++ ["\x7d"]))

def programTokens : List WorkflowStatement → List String
  | [] => []
  | s :: ss => statementTokens s ++ programTokens ss

def elifTokens : List (ConditionBlock WorkflowStatement) → List String
  | [] => []
  | ⟨condition, statements⟩ :: blocks =>
    "elif" :: (expressionTokens condition ++ "\x7b" :: (programTokens statements ++
      "\x7d" :: elifTokens blocks))

/-- An `else` without statements is not printed. -/
def elseTokens : List WorkflowStatement → List String
  | [] => []
  | s :: ss => "else" :: "\x7b" :: (statementTokens s ++ programTokens ss ++ ["\x7d"])

end

/-- A program as it is printed, with one blank between two tokens. -/
def printedProgram (p : Program) : String := " ".intercalate (programTokens p)

theorem programTokens_eq (p : Program) : programTokens p = p.flatMap statementTokens := by
  induction p with
  | nil => rfl
  | cons s p ih => rw [programTokens, ih]; rfl

def scopeTokens (p : Program) : List String := "\x7b" :: (p.flatMap statementTokens ++ ["\x7d"])

def elifBlockTokens (block : ConditionBlock WorkflowStatement) : List String :=
  "elif" :: (expressionTokens block.condition ++ scopeTokens block.statements)

theorem elifTokens_eq (blocks : List (ConditionBlock WorkflowStatement)) :
    elifTokens blocks = blocks.flatMap elifBlockTokens := by
  induction blocks with
  | nil => rfl
  | cons block blocks ih =>
    rw [elifTokens, ih, programTokens_eq, List.flatMap_cons, elifBlockTokens, scopeTokens]
    simp only [List.cons_append, List.append_assoc, List.nil_append]

theorem elseTokens_eq (p : Program) : elseTokens p = if p = [] then [] else "else" :: scopeTokens p := by
  cases p with
  | nil => rfl
  | cons s p =>
    rw [elseTokens, programTokens_eq, if_neg (List.cons_ne_nil _ _), scopeTokens, List.flatMap_cons,
      List.append_assoc]

theorem ifTokens (block : IfBlock) : statementTokens (.ifBlock block) =
    "if" :: (expressionTokens block.ifBlock.condition ++ (scopeTokens block.ifBlock.statements ++
      (block.elifBlocks.flatMap elifBlockTokens ++ elseTokens block.elseBlock))) := by
  obtain ⟨⟨condition, statements⟩, elifBlocks, elseBlock⟩ := block
  rw [statementTokens, elifTokens_eq, programTokens_eq, scopeTokens]
  simp only [List.cons_append, List.append_assoc, List.nil_append]

theorem repeatTokens (block : RepeatBlock) :
    statementTokens (.repeatBlock block) = "repeat" :: scopeTokens block.scope := by
  rw [statementTokens, programTokens_eq, scopeTokens]

theorem definitionTokens (w : WorkflowDefinition) : statementTokens (.workflowDefinition w) =
    w.name :: ":" :: "workflow" :: "=" :: (signatureTokens w.signature ++ scopeTokens w.statements) := by
  obtain ⟨name, signature, statements⟩ := w
  rw [statementTokens, programTokens_eq, scopeTokens]

/-! ## What is written, and what is read -/

/-- The words and the numbers of a program are printed and read back. -/
def WritableProgram (p : Program) : Prop :=
  ∀ s, Stands s p → (∀ w ∈ s.names, Plain w) ∧ ∀ e ∈ s.expressions, Spelt e

def ReadableProgram (p : Program) : Prop := ∀ s, Stands s p → ∀ e ∈ s.expressions, Readable e

theorem WritableProgram.children {p : Program} {s : WorkflowStatement} (h : WritableProgram p)
    (hs : s ∈ p) : WritableProgram s.children := fun s' hs' => h s' (.within hs hs')

theorem ReadableProgram.children {p : Program} {s : WorkflowStatement} (h : ReadableProgram p)
    (hs : s ∈ p) : ReadableProgram s.children := fun s' hs' => h s' (.within hs hs')

/-! ## First words -/

/-- The words that the rules for statements look for, but for names and expressions. -/
def statementWords : List String :=
  ["import", "return", "raise", "delay", "break", "if", "repeat", ";", "elif", "else", ")", "\x7b", "\x7d"]

theorem WritableLiteral.not_prefix_of {l : Literal} (h : WritableLiteral l) {s : String}
    (hs : s.toList.head?.any (fun c => !c.isDigit && c ≠ '\'') = true)
    (hb : ∀ b, ¬ s.toList <+: (spelling boolean b).toList) :
    ¬ s.toList <+: (literalToken l).toList := by
  have hdigits : ∀ m : Nat, ∀ r : List Char, ¬ s.toList <+: (toString m).toList ++ r := fun m r =>
    not_prefix_of_head hs fun c hc => by rw [head_digits c hc]; rfl
  cases l with
  | boolean b => exact hb b
  | integer i =>
    have := hdigits i.toInt.toNat []
    rwa [List.append_nil, ← integerToken h.1] at this
  | real r => exact h.elim
  | string s' =>
    refine not_prefix_of_head hs fun c hc => ?_
    simp only [literalToken, String.toList_append] at hc
    cases hc
    rfl
  | duration d =>
    have := hdigits d.count.toNat (spelling durationUnit d.unit).toList
    rwa [← String.toList_append] at this

/-- A word that is a keyword, or that no letter begins. -/
def isMark (s : String) : Bool :=
  s ∈ keywords || s.toList.head?.any fun c => !startsIdentifier c

theorem Plain.not_mark {w : Identifier} (hw : Plain w) {s : String} (hs : isMark s) :
    ¬ s.toList <+: w.toList := by
  rw [isMark, Bool.or_eq_true, decide_eq_true_eq] at hs
  rcases hs with hs | hs
  · exact hw.keyword s hs
  · exact hw.spelled.not_prefix hs

/-- What an expression begins with is none of the words of statements. -/
theorem expression_first {e : Expression} (h : Begun (firstUnary e).primary) :
    ∃ w ws, expressionTokens e = w :: ws ∧ isToken w = true ∧
      ∀ s ∈ statementWords, ¬ s.toList <+: w.toList := by
  have hmark : ∀ s ∈ statementWords, isMark s = true := by decide
  have hplain : ∀ {w : Identifier}, Plain w → isToken w = true ∧
      ∀ s ∈ statementWords, ¬ s.toList <+: w.toList := fun hw =>
    ⟨hw.spelled.isToken, fun s hs => hw.not_mark (hmark s hs)⟩
  rw [expressionTokens_eq]
  cases hu : firstUnary e with
  | mk op p =>
  rw [hu] at h
  cases op with
  | some op =>
    have hop : ∀ op, isToken (spelling unaryOp op) = true ∧
        ∀ s ∈ statementWords, ¬ s.toList <+: (spelling unaryOp op).toList := by
      intro op
      cases op <;> decide
    exact ⟨_, _, rfl, hop op⟩
  | none =>
    cases p with
    | identifierPath path => exact ⟨_, _, rfl, hplain (h _ List.mem_cons_self)⟩
    | functionCall call => exact ⟨_, _, rfl, hplain (h.1 _ List.mem_cons_self)⟩
    | literal l =>
      refine ⟨_, _, rfl, WritableLiteral.isToken h, fun s hs => ?_⟩
      have hall : ∀ s ∈ statementWords, s.toList.head?.any (fun c => !c.isDigit && c ≠ '\'') = true ∧
          ∀ b, ¬ s.toList <+: (spelling boolean b).toList := by decide
      exact WritableLiteral.not_prefix_of h (hall s hs).1 (hall s hs).2
    | array elements => exact ⟨_, _, rfl, by decide, by decide⟩
    | dictionary elements => exact ⟨_, _, rfl, by decide, by decide⟩
    | expression e => exact ⟨_, _, rfl, by decide, by decide⟩
    | awaitExpression e => exact ⟨_, _, rfl, by decide, by decide⟩
    | tryExpression e => exact ⟨_, _, rfl, by decide, by decide⟩

/-- What can stand after a statement. -/
def Starts (toks : List String) : Prop :=
  ∀ w ∈ toks.head?, isToken w = true ∧ ∀ s ∈ [";", "elif", "else"], ¬ s.toList <+: w.toList

theorem starts_nil : Starts [] := fun w hw => absurd hw (Option.not_mem_none w)

theorem starts_statement {s : WorkflowStatement} (hn : ∀ w ∈ s.names, Plain w)
    (he : ∀ e ∈ s.expressions, Spelt e) (rest : List String) : Starts (statementTokens s ++ rest) := by
  have hplain : ∀ {w : Identifier} {ws : List String}, Plain w → Starts (w :: ws) := by
    intro w ws hw v hv
    cases hv
    have hmark : ∀ s ∈ [";", "elif", "else"], isMark s = true := by decide
    exact ⟨hw.spelled.isToken, fun s hs => hw.not_mark (hmark s hs)⟩
  have hword : ∀ {w : String} {ws : List String}, (isToken w = true ∧
      ∀ s ∈ [";", "elif", "else"], ¬ s.toList <+: w.toList) → Starts (w :: ws) := by
    intro w ws h v hv
    cases hv
    exact h
  cases s with
  | importStatement path => exact hword (by decide)
  | variableDeclaration name type e =>
    cases e with
    | none => exact hplain (hn name List.mem_cons_self)
    | some e => exact hplain (hn name List.mem_cons_self)
  | assignment path e => exact hplain (hn path.front List.mem_cons_self)
  | delay e => exact hword (by decide)
  | returnStatement e => exact hword (by decide)
  | raise e => exact hword (by decide)
  | breakStatement => exact hword (by decide)
  | expression e =>
    obtain ⟨w, ws, hw, htoken, hnot⟩ :=
      expression_first (he e List.mem_cons_self _ (.here (firstUnary_mem e) rfl))
    rw [statementTokens, hw]
    have hsub : ∀ s ∈ [";", "elif", "else"], s ∈ statementWords := by decide
    exact hword ⟨htoken, fun s hs => hnot s (hsub s hs)⟩
  | ifBlock block =>
    rw [ifTokens]
    exact hword (by decide)
  | repeatBlock block =>
    rw [repeatTokens]
    exact hword (by decide)
  | workflowDefinition w =>
    rw [definitionTokens]
    exact hplain (hn w.name List.mem_cons_self)

/-! ## Where no statement begins -/

theorem lit_word_fail_of {s w : String} (hs : s.toList ≠ [] ∧ ' ' ∉ s.toList) (ht : Begins t (w :: rest))
    (hw : isToken w = true) (hnot : ¬ s.toList <+: w.toList) : lit s t = .fail :=
  ht.lit_fail hs.1 hs.2 fun v hv => by
    cases hv
    exact ⟨hw, hnot⟩

theorem firstOf_congr {α : Type} {p : Parser α} {ps qs : List (Parser α)}
    (h : firstOf ps t = firstOf qs t) : firstOf (p :: ps) t = firstOf (p :: qs) t := by
  simp only [firstOf, h]

/-- The words that statements of one kind begin with. -/
def leadWords : List String := ["import", "return", "raise", "delay", "break", "if", "repeat"]

/-- Where none of their words stands, a statement is a definition, a declaration, an assignment or an
expression. -/
theorem workflowStatement_of_lead (h : ∀ s ∈ leadWords, ¬ s.toList <+: skip t) :
    workflowStatement reals (n + 1) t = firstOf [
      do
        let w ← workflowDefinition n (workflowStatement reals n)
        optionalSemicolons n
        return .workflowDefinition w,
      do
        let (name, type, value) ← variableDeclaration (expression reals n)
        semicolons n
        return .variableDeclaration name type value,
      do
        let (path, e) ← assignmentStatement n (expression reals n)
        semicolons n
        return .assignment path e,
      do let e ← expression reals n; semicolons n; return .expression e] t := by
  have hlit : ∀ s ∈ leadWords, lit s t = .fail := fun s hs => lit_fail (h s hs)
  have hbreak : breakStatement t = .fail := symbol_fail fun e he => by
    rw [List.mem_singleton.mp he]
    exact h "break" (by decide)
  have himport : importStatement n t = .fail := bind_fail (hlit "import" (by decide))
  have hif : ifBlock n (expression reals n) (workflowStatement reals n) t = .fail :=
    bind_fail (hlit "if" (by decide))
  have hrepeat : repeatBlock n (workflowStatement reals n) t = .fail :=
    bind_fail (hlit "repeat" (by decide))
  rw [workflowStatement, alternatives, returnStatement, raiseStatement, delayStatement,
    firstOf_fail (bind_fail himport)]
  refine firstOf_congr ?_
  rw [firstOf_fail (bind_fail (bind_fail (hlit "return" (by decide)))),
    firstOf_fail (bind_fail (bind_fail (hlit "raise" (by decide)))),
    firstOf_fail (bind_fail (bind_fail (hlit "delay" (by decide)))), firstOf_fail (bind_fail hbreak),
    firstOf_fail (bind_fail hif), firstOf_fail (bind_fail hrepeat)]

theorem workflowStatement_fail (h : ∀ c ∈ (skip t).head?, beginsExpression c = false) :
    workflowStatement reals n t = .fail := by
  cases n with
  | zero => rfl
  | succ n =>
    have hstarts : ∀ c ∈ (skip t).head?, startsIdentifier c = false := fun c hc => by
      have hc := h c hc
      rw [beginsExpression, Bool.or_eq_false_iff] at hc
      exact starts_eq_false hc.1
    have hid : identifier t = .fail := identifier_fail hstarts
    have hlead : ∀ s ∈ leadWords, ¬ s.toList <+: skip t := fun s hs => by
      have hall : ∀ s ∈ leadWords, s.toList.head?.any startsIdentifier = true := by decide
      exact not_prefix_of_head (hall s hs) hstarts
    have hdefinition : workflowDefinition n (workflowStatement reals n) t = .fail := bind_fail hid
    have hdeclaration : variableDeclaration (expression reals n) t = .fail := bind_fail hid
    have hassignment : assignmentStatement n (expression reals n) t = .fail := bind_fail (bind_fail hid)
    rw [workflowStatement_of_lead hlead, firstOf_fail (bind_fail hdefinition),
      firstOf_fail (bind_fail hdeclaration), firstOf_fail (bind_fail hassignment),
      firstOf_fail (bind_fail (expression_fail n h))]
    rfl

/-! ## Reading the parts of statements -/

theorem optionalSemicolons_read (hrest : Starts rest) :
    optionalSemicolons n (spaced rest) = .ok () (spaced rest) := by
  have hsemicolon : semicolon (spaced rest) = .fail :=
    begins_spaced.lit_fail (by decide) (by decide) fun w hw =>
      ⟨(hrest w hw).1, (hrest w hw).2 ";" (by decide)⟩
  exact bind_ok (many_fail hsemicolon)

theorem semicolons_read (hrest : Starts rest) (ht : Begins t (";" :: rest)) :
    semicolons n t = .ok () (spaced rest) :=
  (bind_ok (ht.lit_ok (by decide))).trans (optionalSemicolons_read hrest)

/-- An expression to its semicolon. -/
theorem operand_read {s : String} (hs : isToken s = true) {e : Expression} {f : Expression → WorkflowStatement}
    (he : Reads (expression reals n) e (expressionTokens e) [";"]) (hrest : Starts rest)
    (ht : Begins t (s :: (expressionTokens e ++ ";" :: rest))) :
    (do let e ← (do lit s; expression reals n); semicolons n; return f e : Parser _) t =
      .ok (f e) (spaced rest) := by
  have hfollows : Follows [";"] (";" :: rest) := fun w hw => by
    cases hw
    exact List.mem_cons_self
  exact (bind_ok ((bind_ok (ht.lit_ok hs)).trans (he _ _ hfollows begins_spaced))).trans
    (bind_ok (semicolons_read hrest begins_spaced))

theorem brace_fail {rest : List String} (ht : Begins t ("\x7d" :: rest)) :
    workflowStatement reals n t = .fail :=
  workflowStatement_fail fun c hc => by
    simpa using ht.head (p := fun c => !beginsExpression c) (by decide) (by decide) c hc

theorem scope_read {p : Program} (hp : ∀ s ∈ p, ReadsBefore (workflowStatement reals n) s
      (statementTokens s) Starts)
    (hs : ∀ s ∈ p, ∀ rest, Starts (statementTokens s ++ rest)) (hn : p.length ≤ n)
    (ht : Begins t (scopeTokens p ++ rest)) :
    scope n (workflowStatement reals n) t = .ok p (spaced rest) := by
  rw [scopeTokens, List.cons_append, List.append_assoc, List.singleton_append] at ht
  have hclose : Starts ("\x7d" :: rest) := fun w hw => by
    cases hw
    decide
  have hmany : many (workflowStatement reals n) n (spaced (p.flatMap statementTokens ++ "\x7d" :: rest)) =
      .ok p (spaced ("\x7d" :: rest)) := by
    refine many_before (R := fun toks => ∃ rest, toks = "\x7d" :: rest) (S := Starts)
      (fun s h => hp s (List.dropLast_subset _ h)) (fun s h t rest hrest => ?_) hs
      (fun t rest hrest ht => ?_) hn ⟨rest, rfl⟩
    · obtain ⟨rest, rfl⟩ := hrest
      refine hp s (List.mem_of_getLast? h) t _ fun w hw => ?_
      cases hw
      decide
    · obtain ⟨rest, rfl⟩ := hrest
      exact brace_fail ht
  exact (bind_ok (ht.lit_ok (by decide))).trans ((bind_ok hmany).trans
    (bind_ok (begins_spaced.lit_ok (by decide))))

theorem conditionBlock_read {block : ConditionBlock WorkflowStatement}
    (he : Reads (expression reals n) block.condition (expressionTokens block.condition) ["\x7b"])
    (hs : scope n (workflowStatement reals n) (spaced (scopeTokens block.statements ++ rest)) =
      .ok block.statements (spaced rest))
    (ht : Begins t (expressionTokens block.condition ++ (scopeTokens block.statements ++ rest))) :
    conditionBlock n (expression reals n) (workflowStatement reals n) t = .ok block (spaced rest) := by
  have hfollows : Follows ["\x7b"] (scopeTokens block.statements ++ rest) := fun w hw => by
    cases hw
    exact List.mem_cons_self
  exact (bind_ok (he _ _ hfollows ht)).trans (bind_ok hs)

/-! ### Signatures -/

theorem reads_declaration {d : Declaration} (hd : ∀ w ∈ [d.name, d.type], Plain w) {F : List String} :
    Reads declaration d (declarationTokens d) F := fun _ _ _ ht =>
  (bind_ok ((hd d.name (by simp)).identifier_ok ht)).trans ((bind_ok (begins_spaced.lit_ok (by decide))).trans
    (bind_ok ((hd d.type (by simp)).identifier_ok begins_spaced)))

theorem declaration_symbol {w : String} (hw : isToken w = true)
    (hs : w.toList.head?.any (fun c => !startsIdentifier c) = true) (ht : Begins t (w :: rest)) :
    declaration t = .fail := bind_fail (identifier_symbol ht hw hs)

theorem signature_read {signature : Signature} (hw : ∀ w ∈ signature.names, Plain w)
    (hn : signature.inputs.length ≤ n) (hrest : Follows ["\x7b"] rest)
    (ht : Begins t (signatureTokens (some signature) ++ rest)) :
    Grammar.signature n t = .ok signature (spaced rest) := by
  obtain ⟨inputs, returnType⟩ := signature
  simp only [signatureTokens, List.cons_append, List.append_assoc] at ht
  have hreturn : option (do lit "->"; identifier.expect) (spaced (returnTypeTokens returnType ++ rest)) =
      .ok returnType (spaced rest) := by
    cases returnType with
    | none =>
      refine option_fail (bind_fail (begins_spaced.lit_fail (by decide) (by decide) fun w hw => ?_))
      rw [List.mem_singleton.mp (hrest w hw)]
      decide
    | some type =>
      have htype : Plain type := hw type (by simp [Signature.names])
      exact option_ok ((bind_ok (begins_spaced.lit_ok (by decide))).trans
        (expect_ok (htype.identifier_ok begins_spaced)))
  have hdeclaration : ∀ d ∈ inputs, Reads declaration d (declarationTokens d) [",", ")"] := by
    intro d hd
    refine reads_declaration fun w hw' => hw w ?_
    exact List.mem_append_left _ (List.mem_flatMap.mpr ⟨d, hd, hw'⟩)
  refine (bind_ok (ht.lit_ok (by decide))).trans ((enclosed_ok (k := fun inputs => do
    let returnType ← option (do lit "->"; identifier.expect)
    return Signature.mk inputs returnType) (by decide) (by decide) hdeclaration
    (fun t rest ht => declaration_symbol (w := ")") (by decide) (by decide) ht) hn begins_spaced).trans ?_)
  exact bind_ok hreturn

theorem option_signature_read {signature : Option Signature}
    (hw : ∀ w ∈ signature.elim [] Signature.names, Plain w)
    (hn : (signatureTokens signature).length ≤ n) (hrest : Follows ["\x7b"] rest)
    (ht : Begins t (signatureTokens signature ++ rest)) :
    ∃ u, option (Grammar.signature n) t = .ok signature u ∧ Begins u rest := by
  cases signature with
  | none =>
    refine ⟨t, option_fail (bind_fail (ht.lit_fail (by decide) (by decide) fun w hw => ?_)), ht⟩
    rw [List.mem_singleton.mp (hrest w hw)]
    decide
  | some signature =>
    have hlen : signature.inputs.length ≤ n := by
      have hcommas := length_le_commas (signature.inputs.map declarationTokens)
      rw [List.length_map] at hcommas
      simp only [signatureTokens, List.length_cons, List.length_append] at hn
      omega
    exact ⟨_, option_ok (signature_read hw hlen hrest ht), begins_spaced⟩

/-! ## Reading statements -/

/-- The path an expression begins with, and what follows it. -/
theorem path_first {F : List String} (hF : Closing F) {e : Expression} (hp : Begun (firstUnary e).primary)
    (hn : (expressionTokens e).length ≤ n) (hrest : Follows F rest)
    (ht : Begins t (expressionTokens e ++ rest)) :
    identifierPath n t = .fail ∨ ∃ path toks, identifierPath n t = .ok path (spaced toks) ∧
      Follows ("(" :: afterOperand F) toks := by
  rw [expressionTokens_eq] at hn
  rw [expressionTokens_eq, List.append_assoc] at ht
  have htail : Follows ("(" :: afterOperand F) (tailTokens e ++ rest) := fun w hw =>
    List.mem_cons_of_mem _ (tailTokens_head hF (e := e) hrest w hw).1
  by_cases hword : startsWord (firstUnary e) = false
  · exact .inl (identifierPath_fail (identifier_unword hp hword ht))
  right
  cases hu : firstUnary e with
  | mk op p =>
  rw [hu] at ht hp hword hn
  cases op with
  | some op => exact absurd rfl hword
  | none =>
    cases p with
    | identifierPath path =>
      refine ⟨path, _, reads_path hp ?_ (fun w hw => ⟨(hF.operand w hw).1, (hF.operand w hw).2 _ (by decide)⟩) t _ (fun w hw => ?_) ht, htail⟩
      · simp only [unaryTokens, primaryTokens, List.length_append, length_pathTokens] at hn
        omega
      · exact (tailTokens_head hF (e := e) hrest w hw).1
    | literal l =>
      cases l with
      | boolean b =>
        have hid := identifier_spaced (spelled_boolean b) (unreserved_boolean b) ht
        have hdot : lit "." (spaced (tailTokens e ++ rest)) = .fail :=
          begins_spaced.lit_fail (by decide) (by decide) fun w hw =>
            have h := hF.operand w (tailTokens_head hF (e := e) hrest w hw).1
            ⟨h.1, h.2 _ (by decide)⟩
        exact ⟨⟨_, []⟩, _, (bind_ok hid).trans (bind_ok (many_fail (bind_fail hdot))), htail⟩
      | _ => exact absurd rfl hword
    | functionCall call =>
      obtain ⟨path, arguments⟩ := call
      rw [unaryTokens, primaryTokens, List.append_assoc, List.cons_append] at ht
      have hproperties : path.properties.length ≤ n := by
        simp only [unaryTokens, primaryTokens, List.length_append, length_pathTokens] at hn
        omega
      refine ⟨path, _, reads_path (F := ["("]) hp.1 hproperties (by decide) t _ (fun w hw => ?_) ht,
        fun w hw => ?_⟩
      · cases hw
        exact List.mem_cons_self
      · cases hw
        exact List.mem_cons_self
    | _ => exact absurd rfl hword

/-- What follows the first word or path of an expression statement. -/
def afterPath : List String := "." :: "(" :: afterOperand [";"]

theorem afterPath_fail {s : String} (hs : s ∈ [":", "->", "\x7b"]) {toks : List String}
    (h : Follows afterPath toks) (ht : Begins t toks) : lit s t = .fail := by
  have hall : ∀ s ∈ [":", "->", "\x7b"], s.toList ≠ [] ∧ ' ' ∉ s.toList ∧
      ∀ w ∈ afterPath, isToken w = true ∧ ¬ s.toList <+: w.toList := by decide
  obtain ⟨hne, hblank, hnot⟩ := hall s hs
  exact ht.lit_fail hne hblank fun w hw => hnot w (h w hw)

theorem colon_fail {e : Expression} (hp : Begun (firstUnary e).primary)
    (ht : Begins t (expressionTokens e ++ ";" :: rest)) {α : Type} {k : Identifier → Parser α} :
    (do let name ← identifier; lit ":"; k name : Parser α) t = .fail := by
  have hfollows : Follows [";"] (";" :: rest) := fun w hw => by
    cases hw
    exact List.mem_cons_self
  rcases identifier_first (F := [";"]) (by decide) hp hfollows ht with hid | ⟨w, toks, hid, hf, -⟩
  · exact bind_fail hid
  · exact (bind_ok hid).trans (bind_fail (afterPath_fail (by decide) hf begins_spaced))

/-- No scope follows what a signature takes off an expression. -/
theorem scope_of_expression {e : Expression} (he : Spelt e) {p : Parser WorkflowStatement} {α : Type}
    {k : Option Signature → WorkflowScope → Parser α}
    (ht : Begins t (expressionTokens e ++ ";" :: rest)) :
    (do let signature ← option (Grammar.signature n); let ss ← scope n p; k signature ss : Parser α) t =
      .fail := by
  have hbegun : Begun (firstUnary e).primary := he _ (.here (firstUnary_mem e) rfl)
  have hfollows : Follows [";"] (";" :: rest) := fun w hw => by
    cases hw
    exact List.mem_cons_self
  have htail : Follows afterPath (tailTokens e ++ ";" :: rest) := fun w hw =>
    List.mem_cons_of_mem _ (List.mem_cons_of_mem _
      (tailTokens_head (F := [";"]) (by decide) (e := e) hfollows w hw).1)
  obtain ⟨w, ws, hw, htoken, hnot⟩ := expression_first hbegun
  have hscope : scope n p t = .fail := by
    rw [hw] at ht
    exact bind_fail (lit_word_fail_of (by decide) ht htoken (hnot _ (by decide)))
  -- Only what begins with a parenthesis is taken for a signature.
  have hnone : Grammar.signature n t = .fail →
      (do let signature ← option (Grammar.signature n); let ss ← scope n p; k signature ss : Parser α) t =
        .fail := fun h => (bind_ok (option_fail h)).trans (bind_fail hscope)
  have hother : ¬ "(".toList <+: w.toList → Grammar.signature n t = .fail := fun h => by
    rw [hw] at ht
    exact bind_fail (lit_word_fail_of (by decide) ht htoken h)
  rw [expressionTokens_eq] at hw
  rw [expressionTokens_eq, List.append_assoc] at ht
  cases hu : firstUnary e with
  | mk op q =>
  rw [hu] at ht hbegun hw
  have hchild : ∀ c ∈ q.children, Begun (firstUnary c).primary := fun c hc =>
    he _ (.within (firstUnary_mem e) (by rw [hu]; exact hc) (.here (firstUnary_mem c) rfl))
  cases op with
  | some op =>
    obtain ⟨rfl, -⟩ := List.cons.inj hw
    refine hnone (hother ?_)
    cases op <;> decide
  | none =>
    cases q with
    | identifierPath path =>
      obtain ⟨rfl, -⟩ := List.cons.inj hw
      exact hnone (hother ((hbegun _ List.mem_cons_self).not_mark (by decide)))
    | functionCall call =>
      obtain ⟨rfl, -⟩ := List.cons.inj hw
      exact hnone (hother ((hbegun.1 _ List.mem_cons_self).not_mark (by decide)))
    | literal l =>
      obtain ⟨rfl, -⟩ := List.cons.inj hw
      exact hnone (hother (WritableLiteral.not_prefix_of hbegun (by decide) (by decide)))
    | array elements =>
      obtain ⟨rfl, -⟩ := List.cons.inj hw
      exact hnone (hother (by decide))
    | awaitExpression e =>
      obtain ⟨rfl, -⟩ := List.cons.inj hw
      exact hnone (hother (by decide))
    | tryExpression e =>
      obtain ⟨rfl, -⟩ := List.cons.inj hw
      exact hnone (hother (by decide))
    | dictionary elements =>
      rw [unaryTokens, primaryTokens, assignmentsTokens_eq] at ht
      cases elements with
      | nil =>
        have hlist : declarationList n (spaced (")" :: (tailTokens e ++ ";" :: rest))) = .fail :=
          bind_fail (declaration_symbol (w := ")") (by decide) (by decide) begins_spaced)
        have hreturn : option (do lit "->"; identifier.expect) (spaced (tailTokens e ++ ";" :: rest)) =
            .ok none (spaced (tailTokens e ++ ";" :: rest)) :=
          option_fail (bind_fail (afterPath_fail (by decide) htail begins_spaced))
        have hsignature : Grammar.signature n t =
            .ok ⟨[], none⟩ (spaced (tailTokens e ++ ";" :: rest)) :=
          (bind_ok (ht.lit_ok (by decide))).trans ((bind_ok (option_fail hlist)).trans
            ((bind_ok (begins_spaced.lit_ok (by decide))).trans (bind_ok hreturn)))
        exact (bind_ok (option_ok hsignature)).trans
          (bind_fail (bind_fail (afterPath_fail (by decide) htail begins_spaced)))
      | cons a as =>
        refine hnone ((bind_ok (ht.lit_ok (by decide))).trans ?_)
        have hname : Plain a.name := hbegun a List.mem_cons_self
        rw [List.map_cons, commas, assignmentTokens]
        have hdeclaration : declaration (spaced (a.name :: "=" ::
            (expressionTokens a.value ++ (as.map assignmentTokens).flatMap (fun toks => "," :: toks) ++
              [")"] ++ (tailTokens e ++ ";" :: rest)))) = .fail :=
          (bind_ok (hname.identifier_ok begins_spaced)).trans (bind_fail
            (lit_word_fail_of (by decide) begins_spaced (by decide) (by decide)))
        exact (bind_ok (option_fail (bind_fail hdeclaration))).trans (bind_fail
          (lit_word_fail_of (by decide) begins_spaced hname.spelled.isToken (hname.not_mark (by decide))))
    | expression e' =>
      rw [unaryTokens, primaryTokens, List.cons_append, List.append_assoc, List.singleton_append] at ht
      refine hnone ((bind_ok (ht.lit_ok (by decide))).trans ?_)
      have hbegun' : Begun (firstUnary e').primary := hchild e' List.mem_cons_self
      have hclose : Follows closers (")" :: (tailTokens e ++ ";" :: rest)) := fun w hw => by
        cases hw
        decide
      have hdeclaration : declaration
          (spaced (expressionTokens e' ++ ")" :: (tailTokens e ++ ";" :: rest))) = .fail := by
        rcases identifier_first (F := closers) (by decide) hbegun' hclose begins_spaced with
          hid | ⟨w, toks, hid, hf, -⟩
        · exact bind_fail hid
        · have hall : ∀ w ∈ "." :: "(" :: afterOperand closers,
              isToken w = true ∧ ¬ ":".toList <+: w.toList := by decide
          exact (bind_ok hid).trans (bind_fail (begins_spaced.lit_fail (by decide) (by decide)
            fun w hw => hall w (hf w hw)))
      obtain ⟨w', ws', hw', htoken', hnot'⟩ := expression_first hbegun'
      refine (bind_ok (option_fail (bind_fail hdeclaration))).trans (bind_fail ?_)
      rw [hw']
      exact lit_word_fail_of (by decide) begins_spaced htoken' (hnot' _ (by decide))

/-- A declaration is no definition, also where its type is `workflow` or begins so. -/
theorem definition_of_declaration {name type : Identifier} {value : Option Expression}
    (hname : Plain name) (htype : Plain type) (hvalue : ∀ e ∈ value, Spelt e)
    (ht : Begins t (statementTokens (.variableDeclaration name type value) ++ rest))
    {p : Parser WorkflowStatement} : workflowDefinition n p t = .fail := by
  obtain ⟨toks, htoks, hequals⟩ : ∃ toks,
      statementTokens (.variableDeclaration name type value) ++ rest = name :: ":" :: type :: toks ∧
      (do
        lit "="
        let signature ← option (Grammar.signature n)
        let ss ← scope n p
        return ⟨name, signature, ss⟩ : Parser WorkflowDefinition) (spaced toks) = .fail := by
    cases value with
    | none =>
      exact ⟨";" :: rest, rfl, bind_fail (lit_word_fail_of (by decide) begins_spaced (by decide) (by decide))⟩
    | some e =>
      refine ⟨"=" :: (expressionTokens e ++ ";" :: rest), ?_, ?_⟩
      · simp only [statementTokens, List.cons_append, List.append_assoc, List.nil_append]
      · exact (bind_ok (begins_spaced.lit_ok (by decide))).trans
          (scope_of_expression (hvalue e rfl) begins_spaced)
  rw [htoks] at ht
  refine (bind_ok (hname.identifier_ok ht)).trans ((bind_ok (begins_spaced.lit_ok (by decide))).trans ?_)
  have hskip : skip (spaced (type :: toks)) = type.toList ++ spaced toks :=
    begins_spaced.skip_eq htype.spelled.isToken
  by_cases hp : "workflow".toList <+: type.toList
  · obtain ⟨r, hr⟩ := hp
    rw [← hr, List.append_assoc] at hskip
    refine (bind_ok (lit_ok hskip)).trans ?_
    cases r with
    | nil => exact hequals
    | cons c r =>
      have hc : continuesIdentifier c = true :=
        (word_of_spelled htype.spelled).1 c (hr ▸ List.mem_append_right _ List.mem_cons_self)
      have hsolid : skip (c :: r ++ spaced toks) = c :: r ++ spaced toks :=
        skip_of_solid (solid_of_ne (isSpace_of_continues hc) (by rintro rfl; exact absurd hc (by decide)))
      refine bind_fail (lit_fail (not_prefix_of_head (p := fun c => !continuesIdentifier c) (by decide) ?_))
      rw [hsolid]
      intro d hd
      cases hd
      rw [hc]
      rfl
  · exact bind_fail (lit_word_fail_of (by decide) begins_spaced htype.spelled.isToken hp)

theorem lead_of_plain {w : Identifier} (hw : Plain w) (ht : Begins t (w :: rest)) :
    ∀ s ∈ leadWords, ¬ s.toList <+: skip t := by
  have hall : ∀ s ∈ leadWords, isMark s = true ∧ ' ' ∉ s.toList := by decide
  intro s hs
  rw [ht.skip_eq hw.spelled.isToken]
  exact fun hp => hw.not_mark (hall s hs).1 (prefix_spaced (hall s hs).2 hp)

theorem lead_of_expression {e : Expression} (hp : Begun (firstUnary e).primary)
    (ht : Begins t (expressionTokens e ++ rest)) : ∀ s ∈ leadWords, ¬ s.toList <+: skip t := by
  have hall : ∀ s ∈ leadWords, s ∈ statementWords ∧ ' ' ∉ s.toList := by decide
  obtain ⟨w, ws, hw, htoken, hnot⟩ := expression_first hp
  rw [hw] at ht
  intro s hs
  rw [ht.skip_eq htoken]
  exact fun hp => hnot s (hall s hs).1 (prefix_spaced (hall s hs).2 hp)

theorem read_declaration {name type : Identifier} {value : Option Expression} (hname : Plain name)
    (htype : Plain type) (hvalue : ∀ e ∈ value, Spelt e)
    (he : ∀ e ∈ value, Reads (expression reals n) e (expressionTokens e) [";"]) :
    ReadsBefore (workflowStatement reals (n + 1)) (.variableDeclaration name type value)
      (statementTokens (.variableDeclaration name type value)) Starts := by
  intro t rest hrest ht
  have hdefinition : workflowDefinition n (workflowStatement reals n) t = .fail :=
    definition_of_declaration hname htype hvalue ht
  obtain ⟨toks, htoks, hoption⟩ : ∃ toks,
      statementTokens (.variableDeclaration name type value) ++ rest = name :: ":" :: type :: toks ∧
      option (do lit "="; expression reals n) (spaced toks) = .ok value (spaced (";" :: rest)) := by
    cases value with
    | none =>
      exact ⟨";" :: rest, rfl, option_fail (bind_fail
        (lit_word_fail_of (by decide) begins_spaced (by decide) (by decide)))⟩
    | some e =>
      refine ⟨"=" :: (expressionTokens e ++ ";" :: rest), ?_, option_ok ?_⟩
      · simp only [statementTokens, List.cons_append, List.append_assoc, List.nil_append]
      · refine (bind_ok (begins_spaced.lit_ok (by decide))).trans (he e rfl _ _ (fun w hw => ?_) begins_spaced)
        cases hw
        exact List.mem_cons_self
  rw [htoks] at ht
  have hdeclaration : variableDeclaration (expression reals n) t = .ok (name, type, value)
      (spaced (";" :: rest)) :=
    (bind_ok (hname.identifier_ok ht)).trans ((bind_ok (begins_spaced.lit_ok (by decide))).trans
      ((bind_ok (htype.identifier_ok begins_spaced)).trans (bind_ok hoption)))
  rw [workflowStatement_of_lead (lead_of_plain hname ht), firstOf_fail (bind_fail hdefinition)]
  exact firstOf_ok ((bind_ok hdeclaration).trans (bind_ok (semicolons_read hrest begins_spaced)))

theorem read_assignment {path : IdentifierPath} {e : Expression} (hw : ∀ w ∈ path.names, Plain w)
    (hn : path.properties.length ≤ n) (he : Reads (expression reals n) e (expressionTokens e) [";"]) :
    ReadsBefore (workflowStatement reals (n + 1)) (.assignment path e)
      (statementTokens (.assignment path e)) Starts := by
  intro t rest hrest ht
  have hfront : Plain path.front := hw _ List.mem_cons_self
  rw [statementTokens, List.append_assoc, List.cons_append, List.append_assoc, List.singleton_append] at ht
  have hcolon : ∀ {α : Type} {k : Identifier → Parser α},
      (do let name ← identifier; lit ":"; k name : Parser α) t = .fail := by
    intro α k
    refine (bind_ok (hfront.identifier_ok ht)).trans (bind_fail ?_)
    cases path.properties with
    | nil => exact lit_word_fail_of (by decide) begins_spaced (by decide) (by decide)
    | cons name names => exact lit_word_fail_of (by decide) begins_spaced (by decide) (by decide)
  have hdefinition : workflowDefinition n (workflowStatement reals n) t = .fail := hcolon
  have hdeclaration : variableDeclaration (expression reals n) t = .fail := hcolon
  have hpath : identifierPath n t = .ok path (spaced ("=" :: (expressionTokens e ++ ";" :: rest))) :=
    reads_path (F := ["="]) hw hn (by decide) t _ (fun w hw => by cases hw; exact List.mem_cons_self) ht
  have hassignment : assignmentStatement n (expression reals n) t = .ok (path, e)
      (spaced (";" :: rest)) := by
    refine (bind_ok hpath).trans ((bind_ok (begins_spaced.lit_ok (by decide))).trans (bind_ok
      (he _ _ (fun w hw => ?_) begins_spaced)))
    cases hw
    exact List.mem_cons_self
  rw [workflowStatement_of_lead (lead_of_plain hfront ht), firstOf_fail (bind_fail hdefinition),
    firstOf_fail (bind_fail hdeclaration)]
  exact firstOf_ok ((bind_ok hassignment).trans (bind_ok (semicolons_read hrest begins_spaced)))

theorem read_expression {e : Expression} (hw : Spelt e) (hn : (expressionTokens e).length ≤ n)
    (he : Reads (expression reals n) e (expressionTokens e) [";"]) :
    ReadsBefore (workflowStatement reals (n + 1)) (.expression e) (statementTokens (.expression e))
      Starts := by
  intro t rest hrest ht
  have hbegun : Begun (firstUnary e).primary := hw _ (.here (firstUnary_mem e) rfl)
  have hfollows : Follows [";"] (";" :: rest) := fun w hw => by
    cases hw
    exact List.mem_cons_self
  rw [statementTokens, List.append_assoc, List.singleton_append] at ht
  have hdefinition : workflowDefinition n (workflowStatement reals n) t = .fail := colon_fail hbegun ht
  have hdeclaration : variableDeclaration (expression reals n) t = .fail := colon_fail hbegun ht
  have hassignment : assignmentStatement n (expression reals n) t = .fail := by
    rcases path_first (F := [";"]) (by decide) hbegun hn hfollows ht with hpath | ⟨path, toks, hpath, hf⟩
    · exact bind_fail hpath
    · have hall : ∀ w ∈ "(" :: afterOperand [";"],
          isToken w = true ∧ (w ≠ "==" → ¬ "=".toList <+: w.toList) := by decide
      exact (bind_ok hpath).trans (equals_expression_fail hall hf)
  rw [workflowStatement_of_lead (lead_of_expression hbegun ht), firstOf_fail (bind_fail hdefinition),
    firstOf_fail (bind_fail hdeclaration), firstOf_fail (bind_fail hassignment)]
  exact firstOf_ok ((bind_ok (he _ _ hfollows ht)).trans (bind_ok (semicolons_read hrest begins_spaced)))

theorem read_definition {w : WorkflowDefinition}
    (hw : ∀ name ∈ WorkflowStatement.names (.workflowDefinition w), Plain name)
    (hn : (signatureTokens w.signature).length ≤ n)
    (hscope : ∀ t rest, Begins t (scopeTokens w.statements ++ rest) →
      scope n (workflowStatement reals n) t = .ok w.statements (spaced rest)) :
    ReadsBefore (workflowStatement reals (n + 1)) (.workflowDefinition w)
      (statementTokens (.workflowDefinition w)) Starts := by
  intro t rest hrest ht
  have hname : Plain w.name := hw _ List.mem_cons_self
  rw [definitionTokens] at ht
  simp only [List.cons_append, List.append_assoc] at ht
  have hbrace : Follows ["\x7b"] (scopeTokens w.statements ++ rest) := fun w hw => by
    cases hw
    exact List.mem_cons_self
  obtain ⟨u, hsignature, hu⟩ := option_signature_read (fun name h => hw name (List.mem_cons_of_mem _ h)) hn
    hbrace begins_spaced
  have hdefinition : workflowDefinition n (workflowStatement reals n) t = .ok w (spaced rest) := by
    rw [workflowDefinition, bind_ok (hname.identifier_ok ht), bind_ok (begins_spaced.lit_ok (by decide)),
      bind_ok (begins_spaced.lit_ok (by decide)), bind_ok (begins_spaced.lit_ok (by decide)),
      bind_ok hsignature, bind_ok (hscope _ _ hu)]
    rfl
  rw [workflowStatement_of_lead (lead_of_plain hname ht)]
  exact firstOf_ok ((bind_ok hdefinition).trans (bind_ok (optionalSemicolons_read hrest)))

/-! ### Statements with a word of their own -/

section Lead

variable {kw : String} (hkw : kw ∈ leadWords) (ht : Begins t (kw :: rest))
include hkw ht

theorem lead_fail {s : String} (hs : s ∈ leadWords) (hne : s ≠ kw) : lit s t = .fail := by
  have hall : ∀ s ∈ leadWords, (s.toList ≠ [] ∧ ' ' ∉ s.toList) ∧
      ∀ kw ∈ leadWords, isToken kw = true ∧ (s ≠ kw → ¬ s.toList <+: kw.toList) := by decide
  exact lit_word_fail_of (hall s hs).1 ht ((hall s hs).2 kw hkw).1 (((hall s hs).2 kw hkw).2 hne)

theorem lead_definition {p : Parser WorkflowStatement} : workflowDefinition n p t = .fail := by
  have hall : ∀ kw ∈ leadWords, kw ∈ keywords := by decide
  exact bind_fail (identifier_keyword (hall kw hkw) ht)

theorem lead_break (hne : "break" ≠ kw) : breakStatement t = .fail := by
  have hall : ∀ kw ∈ leadWords, isToken kw = true ∧
      ("break" ≠ kw → ∀ e ∈ [("break", ())], ¬ e.1.toList <+: kw.toList) := by decide
  exact ht.symbol_fail (by decide) fun w hw => by
    cases hw
    exact ⟨(hall kw hkw).1, (hall kw hkw).2 hne⟩

end Lead

theorem read_import {path : IdentifierPath} (hw : ∀ w ∈ path.names, Plain w)
    (hn : path.properties.length ≤ n) :
    ReadsBefore (workflowStatement reals (n + 1)) (.importStatement path)
      (statementTokens (.importStatement path)) Starts := by
  intro t rest hrest ht
  rw [statementTokens, List.cons_append, List.append_assoc, List.singleton_append] at ht
  have himport : importStatement n t = .ok path (spaced (";" :: rest)) := by
    refine (bind_ok (ht.lit_ok (by decide))).trans (reads_path (F := [";"]) hw hn (by decide) _ _
      (fun w hw => ?_) begins_spaced)
    cases hw
    exact List.mem_cons_self
  rw [workflowStatement, alternatives]
  exact firstOf_ok ((bind_ok himport).trans (bind_ok (semicolons_read hrest begins_spaced)))

theorem read_return {e : Expression} (he : Reads (expression reals n) e (expressionTokens e) [";"]) :
    ReadsBefore (workflowStatement reals (n + 1)) (.returnStatement e)
      (statementTokens (.returnStatement e)) Starts := by
  intro t rest hrest ht
  rw [statementTokens, List.cons_append, List.append_assoc, List.singleton_append] at ht
  have hkw : "return" ∈ leadWords := by decide
  have himport : importStatement n t = .fail := bind_fail (lead_fail hkw ht (by decide) (by decide))
  rw [workflowStatement, alternatives, returnStatement, firstOf_fail (bind_fail himport),
    firstOf_fail (bind_fail (lead_definition hkw ht))]
  exact firstOf_ok (operand_read (by decide) he hrest ht)

theorem read_raise {e : Expression} (he : Reads (expression reals n) e (expressionTokens e) [";"]) :
    ReadsBefore (workflowStatement reals (n + 1)) (.raise e) (statementTokens (.raise e)) Starts := by
  intro t rest hrest ht
  rw [statementTokens, List.cons_append, List.append_assoc, List.singleton_append] at ht
  have hkw : "raise" ∈ leadWords := by decide
  have himport : importStatement n t = .fail := bind_fail (lead_fail hkw ht (by decide) (by decide))
  have hreturn := lead_fail hkw ht (s := "return") (by decide) (by decide)
  rw [workflowStatement, alternatives, returnStatement, raiseStatement, firstOf_fail (bind_fail himport),
    firstOf_fail (bind_fail (lead_definition hkw ht)), firstOf_fail (bind_fail (bind_fail hreturn))]
  exact firstOf_ok (operand_read (by decide) he hrest ht)

theorem read_delay {e : Expression} (he : Reads (expression reals n) e (expressionTokens e) [";"]) :
    ReadsBefore (workflowStatement reals (n + 1)) (.delay e) (statementTokens (.delay e)) Starts := by
  intro t rest hrest ht
  rw [statementTokens, List.cons_append, List.append_assoc, List.singleton_append] at ht
  have hkw : "delay" ∈ leadWords := by decide
  have himport : importStatement n t = .fail := bind_fail (lead_fail hkw ht (by decide) (by decide))
  have hreturn := lead_fail hkw ht (s := "return") (by decide) (by decide)
  have hraise := lead_fail hkw ht (s := "raise") (by decide) (by decide)
  rw [workflowStatement, alternatives, returnStatement, raiseStatement, delayStatement,
    firstOf_fail (bind_fail himport), firstOf_fail (bind_fail (lead_definition hkw ht)),
    firstOf_fail (bind_fail (bind_fail hreturn)), firstOf_fail (bind_fail (bind_fail hraise))]
  exact firstOf_ok (operand_read (by decide) he hrest ht)

section Blocks

variable {kw : String} (hkw : kw ∈ leadWords) (ht : Begins t (kw :: rest))
include hkw ht

/-- The alternatives from that for a `break` on are left, where one of their words stands. -/
theorem workflowStatement_of_word (hne : ∀ s ∈ ["import", "return", "raise", "delay"], s ≠ kw) :
    workflowStatement reals (n + 1) t = firstOf
      ((alternatives n (expression reals n) (workflowStatement reals n)).drop 5) t := by
  have hlit : ∀ s ∈ ["import", "return", "raise", "delay"], lit s t = .fail := by
    have hall : ∀ s ∈ ["import", "return", "raise", "delay"], s ∈ leadWords := by decide
    exact fun s hs => lead_fail hkw ht (hall s hs) (hne s hs)
  have himport : importStatement n t = .fail := bind_fail (hlit "import" (by decide))
  rw [workflowStatement, alternatives, returnStatement, raiseStatement, delayStatement,
    firstOf_fail (bind_fail himport), firstOf_fail (bind_fail (lead_definition hkw ht)),
    firstOf_fail (bind_fail (bind_fail (hlit "return" (by decide)))),
    firstOf_fail (bind_fail (bind_fail (hlit "raise" (by decide)))),
    firstOf_fail (bind_fail (bind_fail (hlit "delay" (by decide))))]
  rfl

end Blocks

theorem read_break : ReadsBefore (workflowStatement reals (n + 1)) .breakStatement
    (statementTokens .breakStatement) Starts := by
  intro t rest hrest ht
  rw [statementTokens, List.cons_append, List.cons_append, List.nil_append] at ht
  have hbreak : breakStatement t = .ok () (spaced (";" :: rest)) :=
    ht.symbol_ok (by decide) (List.mem_singleton.mpr rfl) (by decide) (by decide)
  rw [workflowStatement_of_word (by decide) ht (by decide)]
  exact firstOf_ok ((bind_ok hbreak).trans (bind_ok (semicolons_read hrest begins_spaced)))

theorem read_repeat {block : RepeatBlock}
    (hscope : ∀ t rest, Begins t (scopeTokens block.scope ++ rest) →
      scope n (workflowStatement reals n) t = .ok block.scope (spaced rest)) :
    ReadsBefore (workflowStatement reals (n + 1)) (.repeatBlock block)
      (statementTokens (.repeatBlock block)) Starts := by
  intro t rest hrest ht
  rw [repeatTokens, List.cons_append] at ht
  have hkw : "repeat" ∈ leadWords := by decide
  have hif : ifBlock n (expression reals n) (workflowStatement reals n) t = .fail :=
    bind_fail (lead_fail hkw ht (by decide) (by decide))
  have hrepeat : repeatBlock n (workflowStatement reals n) t = .ok block (spaced rest) := by
    rw [repeatBlock, bind_ok (ht.lit_ok (by decide)), bind_ok (hscope _ _ begins_spaced)]
    rfl
  rw [workflowStatement_of_word hkw ht (by decide), alternatives, List.drop_succ_cons, List.drop_succ_cons,
    List.drop_succ_cons, List.drop_succ_cons, List.drop_succ_cons, List.drop_zero,
    firstOf_fail (bind_fail (lead_break hkw ht (by decide))), firstOf_fail (bind_fail hif)]
  exact firstOf_ok ((bind_ok hrepeat).trans (bind_ok (optionalSemicolons_read hrest)))

theorem read_if {block : IfBlock} (hn : block.elifBlocks.length ≤ n)
    (hcondition : ∀ b ∈ block.ifBlock :: block.elifBlocks, ∀ t rest,
      Begins t (expressionTokens b.condition ++ (scopeTokens b.statements ++ rest)) →
      conditionBlock n (expression reals n) (workflowStatement reals n) t = .ok b (spaced rest))
    (hscope : ∀ t rest, Begins t (scopeTokens block.elseBlock ++ rest) →
      scope n (workflowStatement reals n) t = .ok block.elseBlock (spaced rest)) :
    ReadsBefore (workflowStatement reals (n + 1)) (.ifBlock block) (statementTokens (.ifBlock block))
      Starts := by
  intro t rest hrest ht
  rw [ifTokens] at ht
  simp only [List.cons_append, List.append_assoc] at ht
  have hkw : "if" ∈ leadWords := by decide
  -- What follows the branches with conditions is an `else`, or what follows the statement.
  have hrest' : ∀ w ∈ (elseTokens block.elseBlock ++ rest).head?, isToken w = true ∧
      ¬ "elif".toList <+: w.toList := by
    rw [elseTokens_eq]
    split
    next => exact fun w hw => ⟨(hrest w hw).1, (hrest w hw).2 "elif" (by decide)⟩
    next =>
      intro w hw
      cases hw
      decide
  have helifs : many (do lit "elif"; conditionBlock n (expression reals n) (workflowStatement reals n)) n
      (spaced (block.elifBlocks.flatMap elifBlockTokens ++ (elseTokens block.elseBlock ++ rest))) =
      .ok block.elifBlocks (spaced (elseTokens block.elseBlock ++ rest)) := by
    have helif : ∀ b ∈ block.elifBlocks, ∀ {R : List String → Prop},
        ReadsBefore (do lit "elif"; conditionBlock n (expression reals n) (workflowStatement reals n)) b
          (elifBlockTokens b) R := by
      intro b hb R t rest _ ht
      rw [elifBlockTokens, List.cons_append, List.append_assoc] at ht
      exact (bind_ok (ht.lit_ok (by decide))).trans
        (hcondition b (List.mem_cons_of_mem _ hb) _ _ begins_spaced)
    refine many_before (S := fun _ => True) (R := fun toks => ∀ w ∈ toks.head?, isToken w = true ∧
      ¬ "elif".toList <+: w.toList) (fun b hb => helif b (List.dropLast_subset _ hb))
      (fun b hb => helif b (List.mem_of_getLast? hb)) (fun _ _ _ => trivial) (fun t rest hrest ht => ?_) hn
      hrest'
    exact bind_fail (ht.lit_fail (by decide) (by decide) hrest)
  have helse : ∃ x : Option WorkflowScope, option (do lit "else"; scope n (workflowStatement reals n))
      (spaced (elseTokens block.elseBlock ++ rest)) = .ok x (spaced rest) ∧ x.getD [] = block.elseBlock := by
    rw [elseTokens_eq]
    split
    next hnil =>
      refine ⟨none, option_fail (bind_fail (begins_spaced.lit_fail (by decide) (by decide) fun w hw => ?_)),
        hnil.symm⟩
      exact ⟨(hrest w hw).1, (hrest w hw).2 "else" (by decide)⟩
    next =>
      exact ⟨some block.elseBlock, option_ok ((bind_ok (begins_spaced.lit_ok (by decide))).trans
        (hscope _ _ begins_spaced)), rfl⟩
  obtain ⟨x, helse, hx⟩ := helse
  have hif : ifBlock n (expression reals n) (workflowStatement reals n) t = .ok block (spaced rest) := by
    rw [ifBlock, bind_ok (ht.lit_ok (by decide)),
      bind_ok (hcondition block.ifBlock List.mem_cons_self _ _ begins_spaced), bind_ok helifs, bind_ok helse, hx]
    rfl
  rw [workflowStatement_of_word hkw ht (by decide), alternatives, List.drop_succ_cons, List.drop_succ_cons,
    List.drop_succ_cons, List.drop_succ_cons, List.drop_succ_cons, List.drop_zero,
    firstOf_fail (bind_fail (lead_break hkw ht (by decide)))]
  exact firstOf_ok ((bind_ok hif).trans (bind_ok (optionalSemicolons_read hrest)))

end EzCpp.Flow.Grammar
