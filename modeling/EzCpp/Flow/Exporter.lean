import EzCpp.Flow.State

/-!
# The export of programs

`JsonExporter` writes a program as JSON. It goes through the statements and leaves expressions, paths
and signatures as they are written in the source. The export of an if block has the statements of the
if branch in the place of those of every elif branch, and the else branch in the place of the elif
branches. So every branch is in the export exactly if each elif branch reads like the if branch, and
there is no else branch next to one (`preserved_iff`). Of such programs the export tells what they
read like.
-/

namespace EzCpp.Flow.Exporter

open Ast

/-- `as_str`: the texts in the source. -/
structure Code where
  expression : Expression → String
  path : IdentifierPath → String
  signature : Signature → String

/-- A member of an object is assigned: in place, or at the end. -/
def put (members : List (String × Json)) (key : String) (v : Json) : List (String × Json) :=
  if members.any (·.1 == key) then members.map fun m => if m.1 == key then (key, v) else m
  else members ++ [(key, v)]

variable (code : Code)

/-- `as_str` of an `Option` -/
def signatureCode : Option Signature → String
  | some signature => code.signature signature
  | none => "null"

/-- `to_json` of an expression -/
def expressionToJson (e : Expression) : Json := .object [("expression", .string (code.expression e))]

mutual

/-- `to_json` -/
def toJson : WorkflowStatement → Json
  | .importStatement path => .object [("import", .string (code.path path))]
  | .variableDeclaration name type expression =>
    .object [("object", .object ([("name", .string name), ("type", .string type)] ++
      (expression.map fun e => ("arguments", expressionToJson code e)).toList))]
  | .assignment path e => .object [("assigment", .object [("name", .string (code.path path)),
      ("expression", .string (code.expression e))])]
  | .delay e => .object [("delay", .string (code.expression e))]
  | .returnStatement e => .object [("return", .string (code.expression e))]
  | .raise e => .object [("raise", .string (code.expression e))]
  | .breakStatement => .string "break"
  | .expression e => expressionToJson code e
  | .ifBlock ⟨⟨condition, statements⟩, elifBlocks, elseBlock⟩ =>
    let self := put [] "if" (.object [("condition", .string (code.expression condition)),
      ("statements", .array (toJsonScope statements))])
    let self :=
      if elifBlocks.isEmpty then self
      else put self "elif" (.array (elifBlocks.map fun elif =>
        .object [("condition", .string (code.expression elif.condition)),
          ("statements", .array (toJsonScope statements))]))
    let self :=
      if elseBlock.isEmpty then self
      else put self "elif" (.object [("statements", .array (toJsonScope elseBlock))])
    .object [("conditional", .object self)]
  | .repeatBlock ⟨scope⟩ => .object [("repeat", .array (toJsonScope scope))]
  | .workflowDefinition ⟨name, signature, statements⟩ =>
    .object [("workflow", .object [("name", .string name),
      ("signature", .string (signatureCode code signature)),
      ("statements", .array (toJsonScope statements))])]

/-- `to_json` of a `WorkflowScope` or a `Program` -/
def toJsonScope : List WorkflowStatement → List Json
  | [] => []
  | statement :: statements => toJson statement :: toJsonScope statements

end

/-! ## What is promised -/

/-- The statement is in the scope, at some depth. -/
inductive Within (t : WorkflowStatement) : WorkflowScope → Prop
  | here {ss : WorkflowScope} : t ∈ ss → Within t ss
  | ifBranch {ss : WorkflowScope} {b : IfBlock} : .ifBlock b ∈ ss → Within t b.ifBlock.statements →
      Within t ss
  | elifBranch {ss : WorkflowScope} {b : IfBlock} {elif : ConditionBlock WorkflowStatement} :
      .ifBlock b ∈ ss → elif ∈ b.elifBlocks → Within t elif.statements → Within t ss
  | elseBranch {ss : WorkflowScope} {b : IfBlock} : .ifBlock b ∈ ss → Within t b.elseBlock →
      Within t ss
  | repeatScope {ss : WorkflowScope} {b : RepeatBlock} : .repeatBlock b ∈ ss → Within t b.scope →
      Within t ss
  | workflow {ss : WorkflowScope} {w : WorkflowDefinition} : .workflowDefinition w ∈ ss →
      Within t w.statements → Within t ss

/-- A branch with its condition, exported. -/
def branch (b : ConditionBlock WorkflowStatement) : Json :=
  .object [("condition", .string (code.expression b.condition)),
    ("statements", .array (toJsonScope code b.statements))]

/-- The exported conditional has every branch, each kind in its own place. -/
def BranchesKept (b : IfBlock) : Prop :=
  ∃ members ifKey elifKey elseKey,
    toJson code (.ifBlock b) = .object [("conditional", .object members)] ∧
    [ifKey, elifKey, elseKey].Nodup ∧
    (ifKey, branch code b.ifBlock) ∈ members ∧
    (b.elifBlocks ≠ [] → (elifKey, .array (b.elifBlocks.map (branch code))) ∈ members) ∧
    (b.elseBlock ≠ [] →
      (elseKey, .object [("statements", .array (toJsonScope code b.elseBlock))]) ∈ members)

/-- The export has one entry for each statement, in order, and every branch of every if block. -/
structure Preserved (p : Program) : Prop where
  entries : toJsonScope code p = p.map (toJson code)
  branches : ∀ b, Within (.ifBlock b) p → BranchesKept code b

mutual

/-- The statements are the same, as far as one reads. -/
def SameText : WorkflowStatement → WorkflowStatement → Prop
  | .importStatement path, t => ∃ path', t = .importStatement path' ∧ code.path path = code.path path'
  | .variableDeclaration name type expression, t => ∃ expression',
      t = .variableDeclaration name type expression' ∧
        expression.map code.expression = expression'.map code.expression
  | .assignment path e, t => ∃ path' e', t = .assignment path' e' ∧
      code.path path = code.path path' ∧ code.expression e = code.expression e'
  | .delay e, t => ∃ e', t = .delay e' ∧ code.expression e = code.expression e'
  | .returnStatement e, t => ∃ e', t = .returnStatement e' ∧ code.expression e = code.expression e'
  | .raise e, t => ∃ e', t = .raise e' ∧ code.expression e = code.expression e'
  | .breakStatement, t => t = .breakStatement
  | .expression e, t => ∃ e', t = .expression e' ∧ code.expression e = code.expression e'
  | .ifBlock ⟨⟨condition, statements⟩, elifBlocks, elseBlock⟩, t =>
    ∃ condition' statements' elifBlocks' elseBlock',
      t = .ifBlock ⟨⟨condition', statements'⟩, elifBlocks', elseBlock'⟩ ∧
      code.expression condition = code.expression condition' ∧ SameScope statements statements' ∧
      SameBlocks elifBlocks elifBlocks' ∧ SameScope elseBlock elseBlock'
  | .repeatBlock ⟨scope⟩, t => ∃ scope', t = .repeatBlock ⟨scope'⟩ ∧ SameScope scope scope'
  | .workflowDefinition ⟨name, signature, statements⟩, t => ∃ signature' statements',
      t = .workflowDefinition ⟨name, signature', statements'⟩ ∧
      signatureCode code signature = signatureCode code signature' ∧ SameScope statements statements'

def SameScope : WorkflowScope → WorkflowScope → Prop
  | [], ts => ts = []
  | s :: ss, ts => ∃ t ts', ts = t :: ts' ∧ SameText s t ∧ SameScope ss ts'

def SameBlocks : List (ConditionBlock WorkflowStatement) → List (ConditionBlock WorkflowStatement) →
    Prop
  | [], bs => bs = []
  | ⟨condition, statements⟩ :: as, bs => ∃ condition' statements' bs',
      bs = ⟨condition', statements'⟩ :: bs' ∧
      code.expression condition = code.expression condition' ∧ SameScope statements statements' ∧
      SameBlocks as bs'

end

/-- Where the exporter loses nothing: the elif branches read like the if branch, and there is no else
branch next to them. -/
def Plain (p : WorkflowScope) : Prop :=
  ∀ b, Within (.ifBlock b) p →
    (∀ elif ∈ b.elifBlocks, SameScope code elif.statements b.ifBlock.statements) ∧
      (b.elifBlocks = [] ∨ b.elseBlock = [])

/-! ## The branches of one block -/

variable {code} {s t : WorkflowStatement} {ss ts : WorkflowScope} {b : IfBlock}

/-- What the export of an if block has besides the if branch. -/
def otherBranches (code : Code) (b : IfBlock) : List (String × Json) :=
  if b.elseBlock ≠ [] then
    [("elif", .object [("statements", .array (toJsonScope code b.elseBlock))])]
  else if b.elifBlocks ≠ [] then
    [("elif", .array (b.elifBlocks.map fun elif =>
      branch code ⟨elif.condition, b.ifBlock.statements⟩))]
  else []

theorem toJson_ifBlock (b : IfBlock) : toJson code (.ifBlock b) =
    .object [("conditional", .object (("if", branch code b.ifBlock) :: otherBranches code b))] := by
  obtain ⟨⟨condition, statements⟩, elifBlocks, elseBlock⟩ := b
  rw [toJson]
  cases elifBlocks <;> cases elseBlock <;> simp [otherBranches, put, branch]

/-- No statement of an if block is lost exactly if the elif branches are exported like the if branch,
and there is no else branch next to them. -/
theorem branchesKept_iff : BranchesKept code b ↔
    (∀ elif ∈ b.elifBlocks, toJsonScope code elif.statements = toJsonScope code b.ifBlock.statements) ∧
      (b.elifBlocks = [] ∨ b.elseBlock = []) := by
  have elifs : b.elifBlocks.map (branch code) = b.elifBlocks.map (fun elif =>
      branch code ⟨elif.condition, b.ifBlock.statements⟩) ↔ ∀ elif ∈ b.elifBlocks,
        toJsonScope code elif.statements = toJsonScope code b.ifBlock.statements := by
    rw [List.map_inj_left]
    simp [branch]
  constructor
  · rintro ⟨members, ifKey, elifKey, elseKey, hexport, -, -, helif, -⟩
    rw [toJson_ifBlock] at hexport
    cases hexport
    by_cases hnone : b.elifBlocks = []
    · rw [hnone]
      exact ⟨nofun, .inl rfl⟩
    · rcases List.mem_cons.1 (helif hnone) with he | he
      · cases he
      · by_cases helse : b.elseBlock = []
        · rw [otherBranches, if_neg (not_not.2 helse), if_pos hnone, List.mem_singleton] at he
          exact ⟨elifs.1 (Json.array.inj (Prod.mk.inj he).2), .inr helse⟩
        · rw [otherBranches, if_pos helse, List.mem_singleton] at he
          cases (Prod.mk.inj he).2
  · rintro ⟨hsame, halone⟩
    refine ⟨_, "if", if b.elseBlock = [] then "elif" else "", if b.elseBlock = [] then "" else "elif",
      toJson_ifBlock b, ?_, List.mem_cons_self, fun hnone => ?_, fun helse => ?_⟩
    · split <;> decide
    · have helse := halone.resolve_left hnone
      rw [if_pos helse, elifs.2 hsame, otherBranches, if_neg (not_not.2 helse), if_pos hnone]
      exact List.mem_cons_of_mem _ (List.mem_singleton_self _)
    · rw [if_neg helse, otherBranches, if_pos helse]
      exact List.mem_cons_of_mem _ (List.mem_singleton_self _)

/-! ## Texts and exports -/

theorem SameScope.nil_iff (h : SameScope code ss ts) : ss = [] ↔ ts = [] := by
  cases ss with
  | nil =>
    rw [SameScope.eq_def] at h
    exact iff_of_true rfl h
  | cons s ss =>
    obtain ⟨t, ts, rfl, -⟩ := h
    exact iff_of_false nofun nofun

theorem SameBlocks.conditions {as bs : List (ConditionBlock WorkflowStatement)}
    (h : SameBlocks code as bs) : as.map (fun b => code.expression b.condition) =
      bs.map fun b => code.expression b.condition := by
  induction as generalizing bs with
  | nil =>
    rw [SameBlocks.eq_def] at h
    rw [h]
  | cons a as ih =>
    obtain ⟨condition', statements', bs', rfl, hc, -, hbs⟩ := h
    rw [List.map_cons, List.map_cons, ih hbs]
    exact congrArg (· :: _) hc

/-- The export of a block is that of its branches, but for the statements of the elif branches. -/
theorem export_ifBlock {b b' : IfBlock} (hif : branch code b.ifBlock = branch code b'.ifBlock)
    (helif : b.elifBlocks.map (fun b => code.expression b.condition) =
      b'.elifBlocks.map fun b => code.expression b.condition)
    (hnil : b.elseBlock = [] ↔ b'.elseBlock = [])
    (helse : toJsonScope code b.elseBlock = toJsonScope code b'.elseBlock) :
    toJson code (.ifBlock b) = toJson code (.ifBlock b') := by
  have elifs : ∀ b : IfBlock, b.elifBlocks.map (fun elif =>
      branch code ⟨elif.condition, b.ifBlock.statements⟩) =
        (b.elifBlocks.map fun elif => code.expression elif.condition).map fun condition =>
          .object [("condition", .string condition),
            ("statements", .array (toJsonScope code b.ifBlock.statements))] := by
    intro b
    rw [List.map_map]
    rfl
  have statements : toJsonScope code b.ifBlock.statements = toJsonScope code b'.ifBlock.statements := by
    simp only [branch, Json.object.injEq, List.cons.injEq, Prod.mk.injEq, Json.array.injEq] at hif
    exact hif.2.1.2
  have empty : b.elifBlocks = [] ↔ b'.elifBlocks = [] := by
    rw [← List.map_eq_nil_iff, helif, List.map_eq_nil_iff]
  rw [toJson_ifBlock, toJson_ifBlock, hif, otherBranches, otherBranches, elifs, elifs, helif, statements,
    helse]
  simp only [ne_eq, hnil, empty]

mutual

theorem SameText.export : ∀ {s t : WorkflowStatement}, SameText code s t → toJson code s = toJson code t
  | .importStatement _, _, h => by
    obtain ⟨path', rfl, hp⟩ := h
    rw [toJson, toJson, hp]
  | .variableDeclaration name type expression, _, h => by
    obtain ⟨expression', rfl, he⟩ := h
    rw [toJson, toJson]
    cases expression <;> cases expression' <;> simp_all [expressionToJson]
  | .assignment _ _, _, h => by
    obtain ⟨path', e', rfl, hp, he⟩ := h
    rw [toJson, toJson, hp, he]
  | .delay _, _, h => by
    obtain ⟨e', rfl, he⟩ := h
    rw [toJson, toJson, he]
  | .returnStatement _, _, h => by
    obtain ⟨e', rfl, he⟩ := h
    rw [toJson, toJson, he]
  | .raise _, _, h => by
    obtain ⟨e', rfl, he⟩ := h
    rw [toJson, toJson, he]
  | .breakStatement, _, h => by rw [SameText.eq_def] at h; rw [h]
  | .expression _, _, h => by
    obtain ⟨e', rfl, he⟩ := h
    rw [toJson, toJson, expressionToJson, expressionToJson, he]
  | .ifBlock ⟨⟨condition, statements⟩, elifBlocks, elseBlock⟩, _, h => by
    obtain ⟨condition', statements', elifBlocks', elseBlock', rfl, hc, hs, hb, he⟩ := h
    refine export_ifBlock ?_ hb.conditions he.nil_iff (SameScope.export he)
    rw [branch, branch, hc, SameScope.export hs]
  | .repeatBlock ⟨scope⟩, _, h => by
    obtain ⟨scope', rfl, hs⟩ := h
    rw [toJson, toJson, SameScope.export hs]
  | .workflowDefinition ⟨name, signature, statements⟩, _, h => by
    obtain ⟨signature', statements', rfl, hsig, hs⟩ := h
    rw [toJson, toJson, hsig, SameScope.export hs]

theorem SameScope.export : ∀ {ss ts : WorkflowScope}, SameScope code ss ts →
    toJsonScope code ss = toJsonScope code ts
  | [], _, h => by rw [SameScope.eq_def] at h; rw [h]
  | s :: ss, _, h => by
    obtain ⟨t, ts, rfl, hst, hss⟩ := h
    rw [toJsonScope, toJsonScope, SameText.export hst, SameScope.export hss]

end

/-! ## What the export of a plain program tells -/

/-- The key a statement is exported under. -/
def key : WorkflowStatement → String
  | .importStatement _ => "import"
  | .variableDeclaration _ _ _ => "object"
  | .assignment _ _ => "assigment"
  | .delay _ => "delay"
  | .returnStatement _ => "return"
  | .raise _ => "raise"
  | .breakStatement => "break"
  | .expression _ => "expression"
  | .ifBlock _ => "conditional"
  | .repeatBlock _ => "repeat"
  | .workflowDefinition _ => "workflow"

def firstKey : Json → String
  | .object (m :: _) => m.1
  | .string s => s
  | _ => ""

theorem firstKey_toJson (s : WorkflowStatement) : firstKey (toJson code s) = key s := by
  cases s with
  | ifBlock b => rw [toJson_ifBlock]; rfl
  | repeatBlock b => obtain ⟨scope⟩ := b; rw [toJson]; rfl
  | workflowDefinition w => obtain ⟨name, signature, statements⟩ := w; rw [toJson]; rfl
  | _ => rw [toJson]; rfl

theorem key_eq (h : toJson code s = toJson code t) : key s = key t := by
  rw [← @firstKey_toJson code s, ← @firstKey_toJson code t, h]

/-- What `branchesKept_iff` asks for. -/
def Kept (code : Code) (b : IfBlock) : Prop :=
  (∀ elif ∈ b.elifBlocks, toJsonScope code elif.statements = toJsonScope code b.ifBlock.statements) ∧
    (b.elifBlocks = [] ∨ b.elseBlock = [])

theorem Kept.otherBranches_eq (h : Kept code b) : otherBranches code b =
    if b.elseBlock ≠ [] then
      [("elif", .object [("statements", .array (toJsonScope code b.elseBlock))])]
    else if b.elifBlocks ≠ [] then [("elif", .array (b.elifBlocks.map (branch code)))]
    else [] := by
  have elifs : b.elifBlocks.map (branch code) = b.elifBlocks.map fun elif =>
      branch code ⟨elif.condition, b.ifBlock.statements⟩ := by
    refine List.map_congr_left fun elif he => ?_
    rw [branch, branch, h.1 elif he]
  rw [otherBranches, elifs]

/-- Of a block of which nothing is lost everything can be read. -/
theorem Kept.export_inj {b b' : IfBlock} (hb : Kept code b) (hb' : Kept code b')
    (h : toJson code (.ifBlock b) = toJson code (.ifBlock b')) :
    branch code b.ifBlock = branch code b'.ifBlock ∧
      b.elifBlocks.map (branch code) = b'.elifBlocks.map (branch code) ∧
      toJsonScope code b.elseBlock = toJsonScope code b'.elseBlock := by
  have alone : ∀ {b : IfBlock}, Kept code b → b.elseBlock ≠ [] → b.elifBlocks = [] :=
    fun hb hn => hb.2.resolve_right hn
  rw [toJson_ifBlock, toJson_ifBlock, hb.otherBranches_eq, hb'.otherBranches_eq] at h
  simp only [Json.object.injEq, List.cons.injEq, Prod.mk.injEq, true_and, and_true] at h
  refine ⟨h.1, ?_⟩
  by_cases he : b.elseBlock = []
  · by_cases he' : b'.elseBlock = []
    · rw [he, he']
      refine ⟨?_, rfl⟩
      by_cases hi : b.elifBlocks = [] <;> by_cases hi' : b'.elifBlocks = [] <;>
        simp_all
    · have := h.2
      rw [if_pos he', if_neg (not_not.2 he)] at this
      split at this <;> simp at this
  · by_cases he' : b'.elseBlock = []
    · have := h.2
      rw [if_pos he, if_neg (not_not.2 he')] at this
      split at this <;> simp at this
    · rw [if_pos he, if_pos he'] at h
      rw [alone hb he, alone hb' he']
      simpa using h.2

theorem Within.mono (h : Within t ss) (hs : ss ⊆ ts) : Within t ts := by
  cases h with
  | here h => exact .here (hs h)
  | ifBranch hb h => exact .ifBranch (hs hb) h
  | elifBranch hb he h => exact .elifBranch (hs hb) he h
  | elseBranch hb h => exact .elseBranch (hs hb) h
  | repeatScope hb h => exact .repeatScope (hs hb) h
  | workflow hw h => exact .workflow (hs hw) h

def KeptWithin (code : Code) (ss : WorkflowScope) : Prop := ∀ b, Within (.ifBlock b) ss → Kept code b

theorem KeptWithin.head (h : KeptWithin code (s :: ss)) : KeptWithin code [s] :=
  fun b hb => h b (hb.mono (List.cons_subset_cons s (List.nil_subset ss)))

theorem KeptWithin.tail (h : KeptWithin code (s :: ss)) : KeptWithin code ss :=
  fun b hb => h b (hb.mono (List.subset_cons_self s ss))

theorem KeptWithin.ifBlock (h : KeptWithin code [.ifBlock b]) : Kept code b ∧
    KeptWithin code b.ifBlock.statements ∧ (∀ elif ∈ b.elifBlocks, KeptWithin code elif.statements) ∧
      KeptWithin code b.elseBlock :=
  have here := List.mem_singleton_self (WorkflowStatement.ifBlock b)
  ⟨h b (.here here), fun c hc => h c (.ifBranch here hc), fun _ he c hc => h c (.elifBranch here he hc),
    fun c hc => h c (.elseBranch here hc)⟩

theorem KeptWithin.repeatBlock {scope : WorkflowScope} (h : KeptWithin code [.repeatBlock ⟨scope⟩]) :
    KeptWithin code scope :=
  fun b hb => h b (.repeatScope (List.mem_singleton_self _) hb)

theorem KeptWithin.workflow {w : WorkflowDefinition} (h : KeptWithin code [.workflowDefinition w]) :
    KeptWithin code w.statements :=
  fun b hb => h b (.workflow (List.mem_singleton_self _) hb)

mutual

theorem sameText : ∀ {s t : WorkflowStatement}, KeptWithin code [s] → KeptWithin code [t] →
    toJson code s = toJson code t → SameText code s t
  | .importStatement path, t, _, _, h => by
    cases t with
    | importStatement path' =>
      rw [toJson, toJson] at h
      exact ⟨path', rfl, by simpa using h⟩
    | _ => exact absurd (key_eq h) (by simp [key])
  | .variableDeclaration name type expression, t, _, _, h => by
    cases t with
    | variableDeclaration name' type' expression' =>
      rw [toJson, toJson] at h
      cases expression <;> cases expression' <;> simp [expressionToJson] at h <;>
        obtain ⟨rfl, rfl, h⟩ := h
      · exact ⟨none, rfl, rfl⟩
      · exact ⟨some _, rfl, congrArg some h⟩
    | _ => exact absurd (key_eq h) (by simp [key])
  | .assignment path e, t, _, _, h => by
    cases t with
    | assignment path' e' =>
      rw [toJson, toJson] at h
      exact ⟨path', e', rfl, by simpa using h⟩
    | _ => exact absurd (key_eq h) (by simp [key])
  | .delay e, t, _, _, h => by
    cases t with
    | delay e' =>
      rw [toJson, toJson] at h
      exact ⟨e', rfl, by simpa using h⟩
    | _ => exact absurd (key_eq h) (by simp [key])
  | .returnStatement e, t, _, _, h => by
    cases t with
    | returnStatement e' =>
      rw [toJson, toJson] at h
      exact ⟨e', rfl, by simpa using h⟩
    | _ => exact absurd (key_eq h) (by simp [key])
  | .raise e, t, _, _, h => by
    cases t with
    | raise e' =>
      rw [toJson, toJson] at h
      exact ⟨e', rfl, by simpa using h⟩
    | _ => exact absurd (key_eq h) (by simp [key])
  | .breakStatement, t, _, _, h => by
    rw [SameText]
    cases t with
    | breakStatement => rfl
    | _ => exact absurd (key_eq h) (by simp [key])
  | .expression e, t, _, _, h => by
    cases t with
    | expression e' =>
      rw [toJson, toJson, expressionToJson, expressionToJson] at h
      exact ⟨e', rfl, by simpa using h⟩
    | _ => exact absurd (key_eq h) (by simp [key])
  | .ifBlock ⟨⟨condition, statements⟩, elifBlocks, elseBlock⟩, t, hs, ht, h => by
    cases t with
    | ifBlock b' =>
      obtain ⟨⟨condition', statements'⟩, elifBlocks', elseBlock'⟩ := b'
      obtain ⟨kept, ifKept, elifKept, elseKept⟩ := hs.ifBlock
      obtain ⟨kept', ifKept', elifKept', elseKept'⟩ := ht.ifBlock
      obtain ⟨hif, helif, helse⟩ := kept.export_inj kept' h
      simp only [branch, Json.object.injEq, List.cons.injEq, Prod.mk.injEq, Json.array.injEq,
        Json.string.injEq, true_and, and_true] at hif
      exact ⟨condition', statements', elifBlocks', elseBlock', rfl, hif.1,
        sameScope ifKept ifKept' hif.2, sameBlocks elifKept elifKept' helif,
        sameScope elseKept elseKept' helse⟩
    | _ => exact absurd (key_eq h) (by simp [key])
  | .repeatBlock ⟨scope⟩, t, hs, ht, h => by
    cases t with
    | repeatBlock b' =>
      obtain ⟨scope'⟩ := b'
      rw [toJson, toJson] at h
      exact ⟨scope', rfl, sameScope hs.repeatBlock ht.repeatBlock (by simpa using h)⟩
    | _ => exact absurd (key_eq h) (by simp [key])
  | .workflowDefinition ⟨name, signature, statements⟩, t, hs, ht, h => by
    cases t with
    | workflowDefinition w =>
      obtain ⟨name', signature', statements'⟩ := w
      rw [toJson, toJson] at h
      simp only [Json.object.injEq, List.cons.injEq, Prod.mk.injEq, Json.array.injEq,
        Json.string.injEq, true_and, and_true] at h
      obtain ⟨rfl, hsig, hstatements⟩ := h
      exact ⟨signature', statements', rfl, hsig, sameScope hs.workflow ht.workflow hstatements⟩
    | _ => exact absurd (key_eq h) (by simp [key])

theorem sameScope : ∀ {ss ts : WorkflowScope}, KeptWithin code ss → KeptWithin code ts →
    toJsonScope code ss = toJsonScope code ts → SameScope code ss ts
  | [], ts, _, _, h => by
    rw [SameScope]
    cases ts with
    | nil => rfl
    | cons t ts => cases h
  | s :: ss, ts, hs, ht, h => by
    cases ts with
    | nil => cases h
    | cons t ts =>
      rw [toJsonScope, toJsonScope, List.cons.injEq] at h
      exact ⟨t, ts, rfl, sameText hs.head ht.head h.1, sameScope hs.tail ht.tail h.2⟩

theorem sameBlocks : ∀ {as bs : List (ConditionBlock WorkflowStatement)},
    (∀ b ∈ as, KeptWithin code b.statements) → (∀ b ∈ bs, KeptWithin code b.statements) →
      as.map (branch code) = bs.map (branch code) → SameBlocks code as bs
  | [], bs, _, _, h => by
    rw [SameBlocks]
    cases bs with
    | nil => rfl
    | cons b bs => cases h
  | ⟨condition, statements⟩ :: as, bs, ha, hb, h => by
    cases bs with
    | nil => cases h
    | cons b bs =>
      obtain ⟨condition', statements'⟩ := b
      obtain ⟨ha, has⟩ := List.forall_mem_cons.1 ha
      obtain ⟨hb, hbs⟩ := List.forall_mem_cons.1 hb
      simp only [List.map_cons, branch, List.cons.injEq, Json.object.injEq, Prod.mk.injEq,
        Json.array.injEq, Json.string.injEq, true_and, and_true] at h
      exact ⟨condition', statements', bs, rfl, h.1.1, sameScope ha hb h.1.2, sameBlocks has hbs h.2⟩

end

/-! ## What is lost -/

theorem Within.trans (h : Within s ss) (h' : Within t [s]) : Within t ss := by
  induction h with
  | here hs => exact h'.mono (List.cons_subset.2 ⟨hs, List.nil_subset _⟩)
  | ifBranch hb _ ih => exact .ifBranch hb ih
  | elifBranch hb he _ ih => exact .elifBranch hb he ih
  | elseBranch hb _ ih => exact .elseBranch hb ih
  | repeatScope hb _ ih => exact .repeatScope hb ih
  | workflow hw _ ih => exact .workflow hw ih

theorem plain_iff : Plain code ss ↔ KeptWithin code ss := by
  constructor
  · exact fun h b hb => (h b hb).imp_left fun same elif he => (same elif he).export
  · intro h b hb
    have within : KeptWithin code [.ifBlock b] := fun c hc => h c (hb.trans hc)
    obtain ⟨kept, ifKept, elifKept, -⟩ := within.ifBlock
    exact ⟨fun elif he => sameScope (elifKept elif he) ifKept (kept.1 elif he), kept.2⟩

theorem toJsonScope_eq (ss : WorkflowScope) : toJsonScope code ss = ss.map (toJson code) := by
  induction ss with
  | nil => rfl
  | cons s ss ih => rw [toJsonScope, ih, List.map_cons]

variable (code) in
/-- **The export loses nothing if, and only if, the program is plain**, and then different programs
have different exports. -/
theorem preserved_iff (p : Program) : (Preserved code p ↔ Plain code p) ∧
    (Plain code p → ∀ q, Plain code q → ¬ SameScope code p q →
      toJsonScope code p ≠ toJsonScope code q) := by
  refine ⟨?_, fun hp q hq hpq h => hpq (sameScope (plain_iff.1 hp) (plain_iff.1 hq) h)⟩
  rw [plain_iff]
  constructor
  · exact fun h b hb => branchesKept_iff.1 (h.branches b hb)
  · exact fun h => ⟨toJsonScope_eq p, fun b hb => branchesKept_iff.2 (h b hb)⟩

/-- The texts of a program whose expressions are identifiers. -/
def identifiers : Code where
  expression
    | .mk ⟨⟨⟨⟨⟨.mk none (.identifierPath path), []⟩, []⟩, []⟩, []⟩, []⟩ => path.code
    | _ => ""
  path := IdentifierPath.code
  signature _ := "()"

/-- `if a {return b;} elif c {return d;}` is exported without its last statement. -/
theorem elif_lost : ¬ ∀ (code : Code) (p : Program), Preserved code p := by
  intro h
  let name (x : Identifier) : Expression := IdentifierPath.toExpression ⟨x, []⟩
  have kept := (h identifiers [.ifBlock ⟨⟨name "a", [.returnStatement (name "b")]⟩,
    [⟨name "c", [.returnStatement (name "d")]⟩], []⟩]).branches _ (.here (List.mem_singleton_self _))
  have same := (branchesKept_iff.1 kept).1 _ (List.mem_singleton_self _)
  simp [toJsonScope, toJson, name, identifiers, IdentifierPath.toExpression,
    PrimaryExpression.toExpression, IdentifierPath.code] at same

end EzCpp.Flow.Exporter
