import EzCpp.Flow.Statements

/-!
# The programs the grammar reads

A printed program is read back exactly when it is readable, and so is whatever the parser makes of
any text: the readable programs are the image of the parser, and printing and parsing leave all of
them as they are (`program_read_iff`).
-/

namespace EzCpp.Flow.Grammar

open EzCpp.Lib Ast Parser

variable {reals : Reals} {n : Nat} {t r : List Char} {rest : List String}

/-! ## Statement by statement -/

theorem WritableProgram.mem {p : Program} {s : WorkflowStatement} (h : WritableProgram p) (hs : s ∈ p) :
    WritableProgram [s] := fun s' hs' => h s' (.of_mem hs hs')

theorem ReadableProgram.mem {p : Program} {s : WorkflowStatement} (h : ReadableProgram p) (hs : s ∈ p) :
    ReadableProgram [s] := fun s' hs' => h s' (.of_mem hs hs')

theorem readable_iff_mem {p : Program} : ReadableProgram p ↔ ∀ s ∈ p, ReadableProgram [s] := by
  refine ⟨fun h s hs => h.mem hs, fun h s hs => ?_⟩
  cases hs with
  | here hs => exact h s hs s (.here List.mem_cons_self)
  | within hs' hs => exact h _ hs' s (.within List.mem_cons_self hs)

theorem readable_singleton {s : WorkflowStatement} :
    ReadableProgram [s] ↔ (∀ e ∈ s.expressions, Readable e) ∧ ReadableProgram s.children := by
  rw [ReadableProgram, forall_stands_iff]
  exact List.forall_mem_singleton

theorem readable_append {p q : Program} :
    ReadableProgram (p ++ q) ↔ ReadableProgram p ∧ ReadableProgram q := by
  refine ⟨fun h => ⟨fun s hs => h s (stands_append.mpr (.inl hs)), fun s hs =>
    h s (stands_append.mpr (.inr hs))⟩, fun h s hs => ?_⟩
  rcases stands_append.mp hs with hs | hs
  · exact h.1 s hs
  · exact h.2 s hs

theorem statementTokens_ne_nil (s : WorkflowStatement) : statementTokens s ≠ [] := by
  cases s with
  | variableDeclaration name type e =>
    cases e with
    | none => exact List.cons_ne_nil _ _
    | some e => exact List.cons_ne_nil _ _
  | assignment path e => exact List.cons_ne_nil _ _
  | expression e => exact List.append_ne_nil_of_left_ne_nil (expressionTokens_ne_nil e) _
  | ifBlock block => exact ifTokens block ▸ List.cons_ne_nil _ _
  | repeatBlock block => exact repeatTokens block ▸ List.cons_ne_nil _ _
  | workflowDefinition w => exact definitionTokens w ▸ List.cons_ne_nil _ _
  | _ => exact List.cons_ne_nil _ _

section Lengths

variable {α : Type} {f : α → List String} {as : List α}

theorem length_le_flatMap {a : α} (ha : a ∈ as) : (f a).length ≤ (as.flatMap f).length := by
  rw [List.flatMap_def]
  exact (List.infix_of_mem_flatten (List.mem_map_of_mem ha)).length_le

theorem length_le_flatMap_of_ne (hf : ∀ a, f a ≠ []) : as.length ≤ (as.flatMap f).length := by
  induction as with
  | nil => exact Nat.le_refl _
  | cons a as ih =>
    have := List.length_pos_iff.mpr (hf a)
    rw [List.flatMap_cons, List.length_append, List.length_cons]
    omega

end Lengths

/-! ## Reading a printed program back -/

/-- The statements in a statement are read, where each of them is. -/
theorem scope_reads {p : Program} (hlen : (scopeTokens p).length ≤ n + 1) (hw : WritableProgram p)
    (hp : ∀ s ∈ p, (statementTokens s).length ≤ n →
      ReadsBefore (workflowStatement reals n) s (statementTokens s) Starts) :
    ∀ t rest, Begins t (scopeTokens p ++ rest) →
      scope n (workflowStatement reals n) t = .ok p (spaced rest) := by
  simp only [scopeTokens, List.length_cons, List.length_append] at hlen
  have hcount : p.length ≤ (p.flatMap statementTokens).length :=
    length_le_flatMap_of_ne statementTokens_ne_nil
  refine fun t rest ht => scope_read (fun s hs => hp s hs ?_) (fun s hs rest => ?_) (by omega) ht
  · have := length_le_flatMap (f := statementTokens) hs
    omega
  · exact starts_statement (hw s (.here hs)).1 (hw s (.here hs)).2 rest

/-- **A statement is read where its expressions and its statements are readable**, by induction on the
fuel, which the number of its tokens bounds. -/
theorem reads_statement (s : WorkflowStatement) (hlen : (statementTokens s).length ≤ n)
    (hw : WritableProgram [s]) (hr : ReadableProgram [s]) :
    ReadsBefore (workflowStatement reals n) s (statementTokens s) Starts := by
  induction n generalizing s with
  | zero =>
    exact absurd (List.length_eq_zero_iff.mp (Nat.le_zero.mp hlen)) (statementTokens_ne_nil s)
  | succ n ih =>
    obtain ⟨hnames, hspelt⟩ := hw s (.here List.mem_cons_self)
    have hwchildren : WritableProgram s.children := hw.children List.mem_cons_self
    have hreadable := hr s (.here List.mem_cons_self)
    have hrchildren : ReadableProgram s.children := hr.children List.mem_cons_self
    have hexpression : ∀ e ∈ s.expressions, ∀ F, Closing F → (expressionTokens e).length ≤ n →
        Reads (expression reals n) e (expressionTokens e) F := fun e he F hF hlen =>
      reads_readable e hF hlen (hspelt e he) (hreadable e he)
    have hscope : ∀ p ⊆ s.children, (scopeTokens p).length ≤ n + 1 → ∀ t rest,
        Begins t (scopeTokens p ++ rest) → scope n (workflowStatement reals n) t = .ok p (spaced rest) := by
      intro p hp hlen
      refine scope_reads hlen (fun s' hs' => hwchildren s' ?_) fun s' hs' hlen => ih s' hlen
        (hwchildren.mem (hp hs')) (hrchildren.mem (hp hs'))
      cases hs' with
      | here h => exact .here (hp h)
      | within h hs' => exact .within (hp h) hs'
    cases s with
    | importStatement path =>
      simp only [statementTokens, List.length_cons, List.length_append, length_pathTokens] at hlen
      exact read_import hnames (by omega)
    | variableDeclaration name type value =>
      refine read_declaration (hnames name (by simp [WorkflowStatement.names]))
        (hnames type (by simp [WorkflowStatement.names])) (fun e he => ?_) fun e he => ?_
      · exact hspelt e (Option.mem_toList.mpr he)
      · cases he
        simp only [statementTokens, List.length_cons, List.length_append] at hlen
        exact hexpression e (Option.mem_toList.mpr rfl) [";"] (by decide) (by omega)
    | assignment path e =>
      simp only [statementTokens, List.length_cons, List.length_append, length_pathTokens] at hlen
      exact read_assignment hnames (by omega) (hexpression e List.mem_cons_self [";"] (by decide) (by omega))
    | delay e =>
      simp only [statementTokens, List.length_cons, List.length_append] at hlen
      exact read_delay (hexpression e List.mem_cons_self [";"] (by decide) (by omega))
    | returnStatement e =>
      simp only [statementTokens, List.length_cons, List.length_append] at hlen
      exact read_return (hexpression e List.mem_cons_self [";"] (by decide) (by omega))
    | raise e =>
      simp only [statementTokens, List.length_cons, List.length_append] at hlen
      exact read_raise (hexpression e List.mem_cons_self [";"] (by decide) (by omega))
    | breakStatement => exact read_break
    | expression e =>
      simp only [statementTokens, List.length_cons, List.length_append, List.length_nil] at hlen
      exact read_expression (hspelt e List.mem_cons_self) (by omega)
        (hexpression e List.mem_cons_self [";"] (by decide) (by omega))
    | ifBlock block =>
      rw [ifTokens, List.length_cons, List.length_append, List.length_append, List.length_append] at hlen
      have hcount : block.elifBlocks.length ≤ (block.elifBlocks.flatMap elifBlockTokens).length :=
        length_le_flatMap_of_ne fun _ => List.cons_ne_nil _ _
      have hblock : ∀ b ∈ block.ifBlock :: block.elifBlocks,
          (expressionTokens b.condition).length + (scopeTokens b.statements).length ≤ n := by
        refine List.forall_mem_cons.mpr ⟨by omega, fun b hb => ?_⟩
        have hlength := length_le_flatMap (f := elifBlockTokens) hb
        rw [elifBlockTokens, List.length_cons, List.length_append] at hlength
        omega
      have hchildren : ∀ b ∈ block.ifBlock :: block.elifBlocks,
          b.statements ⊆ (WorkflowStatement.ifBlock block).children := by
        refine List.forall_mem_cons.mpr ⟨List.subset_append_left _ _, fun b hb s hs => ?_⟩
        exact List.mem_append_right _ (List.mem_append_left _ (List.mem_flatMap.mpr ⟨b, hb, hs⟩))
      refine read_if (by omega) (fun b hb t rest ht => ?_) fun t rest ht => ?_
      · have hmem : b.condition ∈ (WorkflowStatement.ifBlock block).expressions :=
          List.mem_map_of_mem (f := ConditionBlock.condition) hb
        have hb' := hblock b hb
        exact conditionBlock_read (hexpression _ hmem ["\x7b"] (by decide) (by omega))
          (hscope _ (hchildren b hb) (by omega) _ _ begins_spaced) ht
      · refine hscope block.elseBlock (fun s hs => List.mem_append_right _ (List.mem_append_right _ hs)) ?_ t
          rest ht
        rw [elseTokens_eq] at hlen
        split at hlen
        next hnil =>
          rw [hnil]
          simp only [scopeTokens, List.flatMap_nil, List.nil_append, List.length_cons, List.length_nil] at hlen ⊢
          omega
        next =>
          rw [List.length_cons] at hlen
          omega
    | repeatBlock block =>
      rw [repeatTokens, List.length_cons] at hlen
      exact read_repeat (hscope block.scope (List.Subset.refl _) (by omega))
    | workflowDefinition w =>
      simp only [definitionTokens, List.length_cons, List.length_append] at hlen
      exact read_definition hnames (by omega) (hscope w.statements (List.Subset.refl _) (by omega))

/-- A program is read to the end of its text. -/
theorem program_reads {p : Program} (hlen : (programTokens p).length ≤ n) (hw : WritableProgram p)
    (hr : ReadableProgram p) (ht : Begins t (programTokens p)) :
    ∃ r, program reals n t = .ok p r ∧ skip r = [] := by
  have hread : ∀ s ∈ p, ReadsBefore (workflowStatement reals n) s (statementTokens s) Starts := by
    intro s hs
    rw [programTokens_eq] at hlen
    exact reads_statement s ((length_le_flatMap hs).trans hlen) (hw.mem hs) (hr.mem hs)
  have hstarts : ∀ s ∈ p, ∀ rest, Starts (statementTokens s ++ rest) := fun s hs rest =>
    starts_statement (hw s (.here hs)).1 (hw s (.here hs)).2 rest
  have hfail : ∀ t rest, rest = [] → Begins t rest → workflowStatement reals n t = .fail := by
    rintro t _ rfl ht
    refine workflowStatement_fail fun c hc => ?_
    rw [ht.skip_nil] at hc
    exact absurd hc (Option.not_mem_none c)
  cases p with
  | nil => exact ⟨t, many_fail (hfail t _ rfl ht), ht⟩
  | cons s p =>
    cases n with
    | zero =>
      rw [programTokens, List.length_append] at hlen
      have := List.length_pos_iff.mpr (statementTokens_ne_nil s)
      omega
    | succ n =>
      have hcount : (s :: p).length ≤ ((s :: p).flatMap statementTokens).length :=
        length_le_flatMap_of_ne statementTokens_ne_nil
      rw [programTokens_eq] at hlen ht
      have hmore : many (workflowStatement reals (n + 1)) n (spaced (p.flatMap statementTokens ++ [])) =
          .ok p (spaced []) := by
        refine many_before (R := fun toks => toks = []) (S := Starts)
          (fun s hs => hread s (List.mem_cons_of_mem _ (List.dropLast_subset _ hs)))
          (fun s hs t rest hrest => hread s (List.mem_cons_of_mem _ (List.mem_of_getLast? hs)) t rest ?_)
          (fun s hs => hstarts s (List.mem_cons_of_mem _ hs)) hfail ?_ rfl
        · rw [hrest]
          exact starts_nil
        · rw [List.length_cons] at hcount
          omega
      rw [List.append_nil] at hmore
      have hnext : Starts (p.flatMap statementTokens) := by
        cases p with
        | nil => exact starts_nil
        | cons s' p => exact hstarts s' (List.mem_cons_of_mem _ List.mem_cons_self) _
      exact ⟨spaced [], many_ok (hread s List.mem_cons_self t _ hnext ht) hmore, rfl⟩

theorem parse_printed {p : Program} (hw : WritableProgram p) (hr : ReadableProgram p) :
    parse reals (printedProgram p) = some p := by
  have htext : Begins (printedProgram p).toList (programTokens p) ∧
      (programTokens p).length ≤ (printedProgram p).toList.length + 1 := by
    by_cases hnil : programTokens p = []
    · rw [printedProgram, hnil]
      exact ⟨rfl, Nat.zero_le _⟩
    · obtain ⟨w, toks, htoks⟩ := List.exists_cons_of_ne_nil hnil
      have htext : ' ' :: (printedProgram p).toList = spaced (programTokens p) := by
        rw [printedProgram, htoks, spaced_intercalate]
      have hlen := length_le_spaced (programTokens p)
      rw [← htext] at hlen
      exact ⟨by rw [Begins, ← htext, skip_blank], hlen⟩
  obtain ⟨r, hread, hskip⟩ : ∃ r, program reals ((printedProgram p).toList.length + 1)
      (printedProgram p).toList = .ok p r ∧ skip r = [] := program_reads htext.2 hw hr htext.1
  rw [parse, parseUsing, hread]
  exact if_pos hskip

/-! ## What the parser makes of any text -/

/-- Where a word of the rule follows, an expression is readable. -/
theorem readable_before {w : String} {e : Expression} {u v : List Char} {x : Unit}
    (hw : w.toList.head?.any (fun c => decide (c ≠ '(')) = true) (hn : t.length ≤ n)
    (h : expression reals n t = .ok e u) (hlit : lit w u = .ok x v) : Readable e := by
  rcases readable_of_expression hn h with hr | hs
  · exact hr
  · rw [hs.lit_fail hw] at hlit
    cases hlit

theorem readable_semicolons {e : Expression} {u v : List Char} {x : Unit} (hn : t.length ≤ n)
    (h : expression reals n t = .ok e u) (hs : semicolons n u = .ok x v) : Readable e := by
  obtain ⟨_, _, hlit, -⟩ := of_bind_ok hs
  exact readable_before (w := ";") (by decide) hn h hlit

theorem readable_operand {s : String} {e : Expression} {u v : List Char} {x : Unit} (hn : t.length ≤ n)
    (h : (do lit s; expression reals n) t = .ok e u) (hs : semicolons n u = .ok x v) : Readable e := by
  obtain ⟨_, w, hlit, h⟩ := of_bind_ok h
  exact readable_semicolons ((shortens_lit _ hlit).length_le.trans hn) h hs

theorem readable_simple {s : WorkflowStatement} (he : ∀ e ∈ s.expressions, Readable e)
    (hs : s.children = []) : ReadableProgram [s] :=
  readable_singleton.mpr ⟨he, by rw [hs]; exact readable_iff_mem.mpr nofun⟩

section Shortens

variable {expression : Parser Expression} {statement : Parser WorkflowStatement}
  (he : Shortens expression) (hs : Shortens statement)

theorem shortens_optionalSemicolons : Shortens (optionalSemicolons n) :=
  (shortens_lit ";").many.bind fun _ => .pure _

theorem shortens_semicolons : Shortens (semicolons n) :=
  (shortens_lit ";").bind fun _ => (shortens_lit ";").many.bind fun _ => .pure _

theorem shortens_signature : Shortens (signature n) := by
  have hdeclaration : Shortens declaration := shortens_identifier.bind fun _ => (shortens_lit _).bind
    fun _ => shortens_identifier.bind fun _ => .pure _
  exact (shortens_lit _).bind fun _ => (Shortens.list (shortens_lit _) hdeclaration).option.bind fun _ =>
    (shortens_lit _).bind fun _ => ((shortens_lit _).bind fun _ => shortens_identifier.expect).option.bind
      fun _ => .pure _

theorem shortens_operand {s : String} (he : Shortens expression) {f : Expression → WorkflowStatement} :
    Shortens (do let e ← (do lit s; expression); semicolons n; return f e : Parser WorkflowStatement) :=
  ((shortens_lit _).bind fun _ => he).bind fun _ => shortens_semicolons.bind fun _ => .pure _

include hs

theorem shortens_scope : Shortens (scope n statement) :=
  (shortens_lit _).bind fun _ => hs.many.bind fun _ => (shortens_lit _).bind fun _ => .pure _

include he

theorem shortens_conditionBlock : Shortens (conditionBlock n expression statement) :=
  he.bind fun _ => (shortens_scope hs).bind fun _ => .pure _

theorem shortens_alternatives : ∀ p ∈ alternatives n expression statement, Shortens p := by
  have hpath := shortens_identifierPath (n := n)
  have hscope := shortens_scope (n := n) hs
  have hblock := shortens_conditionBlock (n := n) he hs
  intro p hp
  simp only [alternatives, List.mem_cons, List.not_mem_nil, or_false] at hp
  rcases hp with rfl | rfl | rfl | rfl | rfl | rfl | rfl | rfl | rfl | rfl | rfl
  · exact ((shortens_lit _).bind fun _ => hpath).bind fun _ => shortens_semicolons.bind fun _ => .pure _
  · exact (shortens_identifier.bind fun _ => (shortens_lit _).bind fun _ => (shortens_lit _).bind fun _ =>
      (shortens_lit _).bind fun _ => shortens_signature.option.bind fun _ => hscope.bind fun _ => .pure _).bind
        fun _ => shortens_optionalSemicolons.bind fun _ => .pure _
  · exact shortens_operand he
  · exact shortens_operand he
  · exact shortens_operand he
  · exact (shortens_symbol _).bind fun _ => shortens_semicolons.bind fun _ => .pure _
  · exact ((shortens_lit _).bind fun _ => hblock.bind fun _ => ((shortens_lit _).bind fun _ =>
      hblock).many.bind fun _ => ((shortens_lit _).bind fun _ => hscope).option.bind fun _ => .pure _).bind
        fun _ => shortens_optionalSemicolons.bind fun _ => .pure _
  · exact ((shortens_lit _).bind fun _ => hscope.bind fun _ => .pure _).bind fun _ =>
      shortens_optionalSemicolons.bind fun _ => .pure _
  · exact (shortens_identifier.bind fun _ => (shortens_lit _).bind fun _ => shortens_identifier.bind fun _ =>
      ((shortens_lit _).bind fun _ => he).option.bind fun _ => .pure _).bind fun _ =>
        shortens_semicolons.bind fun _ => .pure _
  · exact (hpath.bind fun _ => (shortens_lit _).bind fun _ => he.bind fun _ => .pure _).bind fun _ =>
      shortens_semicolons.bind fun _ => .pure _
  · exact he.bind fun _ => shortens_semicolons.bind fun _ => .pure _

end Shortens

theorem shortens_workflowStatement (n : Nat) : Shortens (workflowStatement reals n) := by
  induction n with
  | zero => exact nofun
  | succ n ih => exact .firstOf (shortens_alternatives (shortens_expression n) ih)

section Blocks

variable (hst : ∀ ⦃t s r⦄, t.length < n → workflowStatement reals n t = .ok s r → ReadableProgram [s])
include hst

theorem readable_scope {p : Program} (hn : t.length ≤ n)
    (h : scope n (workflowStatement reals n) t = .ok p r) : ReadableProgram p := by
  obtain ⟨_, u, hopen, h⟩ := of_bind_ok h
  obtain ⟨statements, v, hmany, h⟩ := of_bind_ok h
  obtain ⟨_, _, -, hr⟩ := of_bind_ok h
  cases hr
  refine readable_iff_mem.mpr fun s hs => ?_
  obtain ⟨x, y, hx, hs⟩ := of_mem_many (shortens_workflowStatement n) hmany s hs
  exact hst ((hx.length_le.trans_lt (consumes_lit (by decide) hopen)).trans_le hn) hs

theorem readable_conditionBlock {block : ConditionBlock WorkflowStatement} (hn : t.length ≤ n)
    (h : conditionBlock n (expression reals n) (workflowStatement reals n) t = .ok block r) :
    Readable block.condition ∧ ReadableProgram block.statements := by
  obtain ⟨condition, u, he, h⟩ := of_bind_ok h
  obtain ⟨statements, _, hscope, hr⟩ := of_bind_ok h
  cases hr
  obtain ⟨_, _, hopen, -⟩ := of_bind_ok hscope
  exact ⟨readable_before (by decide) hn he hopen,
    readable_scope hst ((shortens_expression n he).length_le.trans hn) hscope⟩

theorem readable_ifBlock {block : IfBlock} (hn : t.length ≤ n)
    (h : ifBlock n (expression reals n) (workflowStatement reals n) t = .ok block r) :
    ReadableProgram [.ifBlock block] := by
  have hblock : Shortens (conditionBlock n (expression reals n) (workflowStatement reals n)) :=
    shortens_conditionBlock (shortens_expression n) (shortens_workflowStatement n)
  obtain ⟨_, u, hif, h⟩ := of_bind_ok h
  obtain ⟨b, v, hb, h⟩ := of_bind_ok h
  obtain ⟨elifBlocks, w, helifs, h⟩ := of_bind_ok h
  obtain ⟨elseBlock, x, helse, hr⟩ := of_bind_ok h
  cases hr
  have hu : u.length ≤ n := (shortens_lit _ hif).length_le.trans hn
  have hv : v.length ≤ n := (hblock hb).length_le.trans hu
  have hfirst := readable_conditionBlock hst hu hb
  have hmore : ∀ b ∈ elifBlocks, Readable b.condition ∧ ReadableProgram b.statements := by
    intro b hb
    obtain ⟨y, z, hy, h⟩ := of_mem_many ((shortens_lit _).bind fun _ => hblock) helifs b hb
    obtain ⟨_, y', helif, h⟩ := of_bind_ok h
    exact readable_conditionBlock hst
      (((shortens_lit _ helif).trans hy).length_le.trans hv) h
  have hlast : ReadableProgram (elseBlock.getD []) := by
    rcases of_option_ok helse with ⟨p, rfl, hp⟩ | ⟨rfl, -, -⟩
    · obtain ⟨_, y, hword, hp⟩ := of_bind_ok hp
      have hw : w.length ≤ n :=
        ((((shortens_lit _).bind fun _ => hblock).many helifs).length_le).trans hv
      exact readable_scope hst ((shortens_lit _ hword).length_le.trans hw) hp
    · exact readable_iff_mem.mpr nofun
  refine readable_singleton.mpr ⟨List.forall_mem_cons.mpr ⟨hfirst.1, fun e he => ?_⟩,
    readable_append.mpr ⟨hfirst.2, readable_append.mpr ⟨readable_iff_mem.mpr fun s hs => ?_, hlast⟩⟩⟩
  · obtain ⟨b, hb, rfl⟩ := List.mem_map.mp he
    exact (hmore b hb).1
  · obtain ⟨b, hb, hs⟩ := List.mem_flatMap.mp hs
    exact (hmore b hb).2.mem hs

end Blocks

/-- **What the rule for statements reads is readable**: one case for each alternative. -/
theorem readable_of_statement {s : WorkflowStatement} (hn : t.length < n)
    (h : workflowStatement reals n t = .ok s r) : ReadableProgram [s] := by
  induction n generalizing t s r with
  | zero => cases h
  | succ n ih =>
    have hst : ∀ ⦃t s r⦄, t.length < n → workflowStatement reals n t = .ok s r → ReadableProgram [s] :=
      fun _ _ _ => ih
    have hn : t.length ≤ n := Nat.le_of_lt_succ hn
    obtain ⟨p, hp, h⟩ := of_firstOf_ok h
    simp only [alternatives, List.mem_cons, List.not_mem_nil, or_false] at hp
    rcases hp with rfl | rfl | rfl | rfl | rfl | rfl | rfl | rfl | rfl | rfl | rfl
    · obtain ⟨path, _, -, hr⟩ := of_bind_ok h
      obtain ⟨_, _, -, hr'⟩ := of_bind_ok hr
      cases hr'
      exact readable_simple (List.forall_mem_nil _) rfl
    · obtain ⟨definition, _, hd, hr⟩ := of_bind_ok h
      obtain ⟨_, _, -, hr'⟩ := of_bind_ok hr
      cases hr'
      obtain ⟨name, u, hname, hd⟩ := of_bind_ok hd
      obtain ⟨_, v, hcolon, hd⟩ := of_bind_ok hd
      obtain ⟨_, w, hworkflow, hd⟩ := of_bind_ok hd
      obtain ⟨_, x, hequals, hd⟩ := of_bind_ok hd
      obtain ⟨signature, y, hsignature, hd⟩ := of_bind_ok hd
      obtain ⟨statements, z, hscope, hd'⟩ := of_bind_ok hd
      cases hd'
      have hy : y <:+ t := (shortens_signature.option hsignature).trans ((shortens_lit _ hequals).trans
        ((shortens_lit _ hworkflow).trans ((shortens_lit _ hcolon).trans (shortens_identifier hname))))
      exact readable_singleton.mpr ⟨List.forall_mem_nil _, readable_scope hst (hy.length_le.trans hn) hscope⟩
    · obtain ⟨e, _, he, hr⟩ := of_bind_ok h
      obtain ⟨_, _, hs, hr'⟩ := of_bind_ok hr
      cases hr'
      exact readable_simple (List.forall_mem_singleton.mpr (readable_operand hn he hs)) rfl
    · obtain ⟨e, _, he, hr⟩ := of_bind_ok h
      obtain ⟨_, _, hs, hr'⟩ := of_bind_ok hr
      cases hr'
      exact readable_simple (List.forall_mem_singleton.mpr (readable_operand hn he hs)) rfl
    · obtain ⟨e, _, he, hr⟩ := of_bind_ok h
      obtain ⟨_, _, hs, hr'⟩ := of_bind_ok hr
      cases hr'
      exact readable_simple (List.forall_mem_singleton.mpr (readable_operand hn he hs)) rfl
    · obtain ⟨_, _, -, hr⟩ := of_bind_ok h
      obtain ⟨_, _, -, hr'⟩ := of_bind_ok hr
      cases hr'
      exact readable_simple (List.forall_mem_nil _) rfl
    · obtain ⟨block, _, hb, hr⟩ := of_bind_ok h
      obtain ⟨_, _, -, hr'⟩ := of_bind_ok hr
      cases hr'
      exact readable_ifBlock hst hn hb
    · obtain ⟨block, _, hb, hr⟩ := of_bind_ok h
      obtain ⟨_, _, -, hr'⟩ := of_bind_ok hr
      cases hr'
      obtain ⟨_, u, hrepeat, hb⟩ := of_bind_ok hb
      obtain ⟨scope, _, hscope, hb'⟩ := of_bind_ok hb
      cases hb'
      exact readable_singleton.mpr
        ⟨List.forall_mem_nil _, readable_scope hst ((shortens_lit _ hrepeat).length_le.trans hn) hscope⟩
    · obtain ⟨⟨name, type, value⟩, _, hd, hr⟩ := of_bind_ok h
      obtain ⟨_, _, hs, hr'⟩ := of_bind_ok hr
      cases hr'
      obtain ⟨_, u, hname, hd⟩ := of_bind_ok hd
      obtain ⟨_, v, hcolon, hd⟩ := of_bind_ok hd
      obtain ⟨_, w, htype, hd⟩ := of_bind_ok hd
      obtain ⟨_, x, hvalue, hd'⟩ := of_bind_ok hd
      cases hd'
      refine readable_simple (fun e he => ?_) rfl
      rcases of_option_ok hvalue with ⟨e', rfl, hsome⟩ | ⟨rfl, -, -⟩
      · obtain rfl : e = e' := List.mem_singleton.mp he
        have hw : w <:+ t := (shortens_identifier htype).trans ((shortens_lit _ hcolon).trans
          (shortens_identifier hname))
        exact readable_operand (hw.length_le.trans hn) hsome hs
      · cases he
    · obtain ⟨⟨path, e⟩, _, ha, hr⟩ := of_bind_ok h
      obtain ⟨_, _, hs, hr'⟩ := of_bind_ok hr
      cases hr'
      obtain ⟨_, u, hpath, ha⟩ := of_bind_ok ha
      obtain ⟨_, v, hequals, ha⟩ := of_bind_ok ha
      obtain ⟨_, w, he, ha'⟩ := of_bind_ok ha
      cases ha'
      have hv : v <:+ t := (shortens_lit _ hequals).trans (shortens_identifierPath hpath)
      exact readable_simple (List.forall_mem_singleton.mpr
        (readable_semicolons (hv.length_le.trans hn) he hs)) rfl
    · obtain ⟨e, _, he, hr⟩ := of_bind_ok h
      obtain ⟨_, _, hs, hr'⟩ := of_bind_ok hr
      cases hr'
      exact readable_simple (List.forall_mem_singleton.mpr (readable_semicolons hn he hs)) rfl

theorem readable_of_parse {code : String} {p : Program} (h : parse reals code = some p) :
    ReadableProgram p := by
  unfold parse parseUsing at h
  split at h
  next a rest ha =>
    split at h
    next =>
      cases h
      refine readable_iff_mem.mpr fun s hs => ?_
      obtain ⟨u, v, hu, hs⟩ := of_mem_many (shortens_workflowStatement _) ha s hs
      exact readable_of_statement (Nat.lt_succ_of_le hu.length_le) hs
    next => cases h
  next => cases h

/-! ## The round trip -/

/-- Of the programs none of whose names begins with a keyword or a boolean, without real numbers,
without integers that are negative or need more than 31 bits, and without quotes in strings, those are
what the parser makes of some text that are what it makes of the printed program: where every `await`
and every `try` is the last operand of its expressions, none of the paths begins like a number and no
unnamed argument compares a word. -/
theorem program_read_iff (reals : Reals) (p : Program) (hw : WritableProgram p) :
    ((∃ code, parse reals code = some p) ↔ parse reals (printedProgram p) = some p) ∧
      (parse reals (printedProgram p) = some p ↔ ReadableProgram p) :=
  ⟨⟨fun ⟨_, h⟩ => parse_printed hw (readable_of_parse h), fun h => ⟨_, h⟩⟩,
    readable_of_parse, parse_printed hw⟩

section Example

theorem spelt_toExpression {p : PrimaryExpression} (hp : Begun p) (hc : ∀ c ∈ p.children, Spelt c) :
    Spelt p.toExpression := forall_occurs_toExpression hp hc

theorem readable_toExpression {p : PrimaryExpression} (hp : Legible p)
    (hc : ∀ c ∈ p.children, Readable c) : Readable p.toExpression := by
  have hunaries : p.toExpression.unaries = [.mk none p] := rfl
  refine ⟨greedy_iff.mpr ⟨nofun, ?_⟩, forall_occurs_toExpression hp fun c h => (hc c h).legible⟩
  rw [hunaries]
  exact List.forall_mem_singleton.mpr fun c h => (hc c h).greedy

/-- `return await n for 1sec ;` where `n` holds, and `break ;` otherwise. -/
def awaitingStatement : WorkflowStatement :=
  .ifBlock ⟨⟨IdentifierPath.toExpression ⟨"n", []⟩,
    [.returnStatement (PrimaryExpression.awaitExpression
      ⟨IdentifierPath.toExpression ⟨"n", []⟩, (Literal.duration ⟨1, .sec⟩).toExpression⟩).toExpression]⟩,
    [], [.breakStatement]⟩

/-- `f : workflow = ( n : x ) -> x` -/
def awaitingWorkflow : Program :=
  [.workflowDefinition ⟨"f", some ⟨[⟨"n", "x"⟩], some "x"⟩, [awaitingStatement]⟩]

theorem awaitingWorkflow_read :
    printedProgram awaitingWorkflow =
      "f : workflow = ( n : x ) -> x \x7b if n \x7b return await n for 1sec ; \x7d else \x7b break ; \x7d \x7d" ∧
    parse noReals (printedProgram awaitingWorkflow) = some awaitingWorkflow := by
  have hplain := plain_letter
  have hpath : Spelt (IdentifierPath.toExpression ⟨"n", []⟩) ∧
      Readable (IdentifierPath.toExpression ⟨"n", []⟩) :=
    ⟨spelt_toExpression (List.forall_mem_singleton.mpr (hplain "n" (by decide))) nofun,
      readable_toExpression (by decide : ¬ BeginsReal "n") nofun⟩
  have hduration : Spelt (Literal.duration ⟨1, .sec⟩).toExpression ∧
      Readable (Literal.duration ⟨1, .sec⟩).toExpression :=
    ⟨spelt_toExpression (by decide : 1 < 2 ^ 32) nofun, readable_toExpression trivial nofun⟩
  have hawait : ∀ {P : Expression → Prop}, P (IdentifierPath.toExpression ⟨"n", []⟩) →
      P (Literal.duration ⟨1, .sec⟩).toExpression → ∀ c ∈ PrimaryExpression.children (.awaitExpression
        ⟨IdentifierPath.toExpression ⟨"n", []⟩, (Literal.duration ⟨1, .sec⟩).toExpression⟩), P c :=
    fun h h' => List.forall_mem_cons.mpr ⟨h, List.forall_mem_singleton.mpr h'⟩
  have hw : WritableProgram awaitingWorkflow := by
    refine forall_stands_iff.mpr (List.forall_mem_singleton.mpr ⟨⟨?_, nofun⟩,
      forall_stands_iff.mpr (List.forall_mem_singleton.mpr ⟨⟨nofun, List.forall_mem_singleton.mpr hpath.1⟩,
        forall_stands_iff.mpr (List.forall_mem_cons.mpr ⟨⟨⟨nofun, ?_⟩, ?_⟩,
          List.forall_mem_singleton.mpr ⟨⟨nofun, nofun⟩, ?_⟩⟩)⟩)⟩)
    · exact fun w hw => hplain w (by revert w; decide)
    · exact List.forall_mem_singleton.mpr (spelt_toExpression trivial (hawait hpath.1 hduration.1))
    · exact forall_stands_iff.mpr nofun
    · exact forall_stands_iff.mpr nofun
  have hr : ReadableProgram awaitingWorkflow := by
    refine readable_singleton.mpr ⟨nofun, readable_singleton.mpr ⟨List.forall_mem_singleton.mpr hpath.2,
      readable_iff_mem.mpr (List.forall_mem_cons.mpr ⟨readable_simple ?_ rfl,
        List.forall_mem_singleton.mpr (readable_simple nofun rfl)⟩)⟩⟩
    exact List.forall_mem_singleton.mpr (readable_toExpression trivial (hawait hpath.2 hduration.2))
  exact ⟨by decide +kernel, (program_read_iff noReals awaitingWorkflow hw).2.mpr hr⟩

end Example

end EzCpp.Flow.Grammar
