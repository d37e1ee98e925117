import EzCpp.Flow.Sharing
import Mathlib.Algebra.Group.Int.Defs

/-!
# Expressions over integers and booleans

A `Reading` gives expressions a meaning without an interpreter: values for literals and variables,
and partial operations for the operators. What is left out of a reading has no meaning in it.

`integers` and `truth` are how the operators are meant: exact arithmetic, comparisons, and truth
tables. `products` is as far as the interpreter gets with them (`yields_expression`): only integers
have operators, `*` is none of them, and `/` multiplies.
-/

namespace EzCpp.Flow

open EzCpp.Lib Ast

/-- A value of an expression, with the integers kept in `N`. -/
inductive Scalar (N : Type)
  | integer (i : N)
  | boolean (b : Bool)
deriving DecidableEq, Repr

/-- A meaning of what expressions are made of. -/
structure Reading (V : Type) where
  literal : Literal → Option V
  identifier : Identifier → Option V
  unary : UnaryOperator → V → Option V
  binary : BinaryOp → V → V → Option V

namespace Reading

/-- `in` and `is` have no meaning in a reading. -/
def equalityOp : EqualityOperator → Option BinaryOp
  | .eq => some .eq
  | .notEq => some .notEq
  | .contained | .is => none

section

variable {V : Type} (r : Reading V)

mutual

def primary : PrimaryExpression → Option V
  | .literal l => r.literal l
  | .identifierPath path => if path.properties.isEmpty then r.identifier path.front else none
  | .expression e => expression e
  | _ => none

def unaryExpression : UnaryExpression → Option V
  | .mk op e => do
    let v ← primary e
    match op with
    | none => some v
    | some op => r.unary op v

def multiplicative : MultiplicativeExpression → Option V
  | ⟨first, terms⟩ => do multiplicativeTerms (← unaryExpression first) terms

/-- The operators of a layer are applied from left to right. -/
def multiplicativeTerms (lhs : V) :
    List (Operation UnaryExpression MultiplicativeOperator) → Option V
  | [] => some lhs
  | ⟨op, term⟩ :: terms => do
    let rhs ← unaryExpression term
    multiplicativeTerms (← r.binary (multiplicativeOp op) lhs rhs) terms

def additive : AdditiveExpression → Option V
  | ⟨first, terms⟩ => do additiveTerms (← multiplicative first) terms

def additiveTerms (lhs : V) : List (Operation MultiplicativeExpression AdditiveOperator) → Option V
  | [] => some lhs
  | ⟨op, term⟩ :: terms => do
    let rhs ← multiplicative term
    additiveTerms (← r.binary (additiveOp op) lhs rhs) terms

def relational : RelationalExpression → Option V
  | ⟨first, terms⟩ => do relationalTerms (← additive first) terms

def relationalTerms (lhs : V) : List (Operation AdditiveExpression RelationalOperator) → Option V
  | [] => some lhs
  | ⟨op, term⟩ :: terms => do
    let rhs ← additive term
    relationalTerms (← r.binary (relationalOp op) lhs rhs) terms

def equality : EqualityExpression → Option V
  | ⟨first, terms⟩ => do equalityTerms (← relational first) terms

def equalityTerms (lhs : V) : List (Operation RelationalExpression EqualityOperator) → Option V
  | [] => some lhs
  | ⟨op, term⟩ :: terms => do
    let op ← equalityOp op
    let rhs ← relational term
    equalityTerms (← r.binary op lhs rhs) terms

def logical : LogicalExpression → Option V
  | ⟨first, terms⟩ => do logicalTerms (← equality first) terms

def logicalTerms (lhs : V) : List (Operation EqualityExpression LogicalOperator) → Option V
  | [] => some lhs
  | ⟨op, term⟩ :: terms => do
    let rhs ← equality term
    logicalTerms (← r.binary (logicalOp op) lhs rhs) terms

def expression : Expression → Option V
  | .mk e => logical e

end

end

/-! ## The readings -/

/-- The result of an exact operation, where it is an `int64_t`. -/
def inRange (i : Int) : Option (Scalar Int) :=
  if -2 ^ 63 ≤ i ∧ i < 2 ^ 63 then some (.integer i) else none

/-- Exact arithmetic, with a division that truncates towards zero, and comparisons. -/
def exactOp (op : BinaryOp) (a b : Int) : Option (Scalar Int) :=
  match op with
  | .mult => inRange (a * b)
  | .div => if b = 0 then none else inRange (a.tdiv b)
  | .plus => inRange (a + b)
  | .minus => inRange (a - b)
  | .less => some (.boolean (decide (a < b)))
  | .lessEq => some (.boolean (decide (a ≤ b)))
  | .greater => some (.boolean (decide (b < a)))
  | .greaterEq => some (.boolean (decide (b ≤ a)))
  | .eq => some (.boolean (decide (a = b)))
  | .notEq => some (.boolean (decide (a ≠ b)))
  | .contains | .and | .or => none

/-- The truth tables. -/
def truthOp (op : BinaryOp) (a b : Bool) : Option (Scalar Int) :=
  match op with
  | .and => some (.boolean (a && b))
  | .or => some (.boolean (a || b))
  | .eq => some (.boolean (decide (a = b)))
  | .notEq => some (.boolean (decide (a ≠ b)))
  | _ => none

variable (vars : Identifier → Option (Scalar Int64))

/-- Integer literals and variables, arithmetic, and comparisons of integers. The result of a
comparison is a boolean, which has no operators. -/
def integers : Reading (Scalar Int) where
  literal
    | .integer i => some (.integer i.toInt)
    | _ => none
  identifier x :=
    match vars x with
    | some (.integer i) => some (.integer i.toInt)
    | _ => none
  unary op v :=
    match op, v with
    | .plus, .integer i => some (.integer i)
    | .minus, .integer i => inRange (-i)
    | _, _ => none
  binary op v w :=
    match v, w with
    | .integer a, .integer b => exactOp op a b
    | _, _ => none

/-- `integers`, with the booleans and their operators. -/
def truth : Reading (Scalar Int) where
  literal
    | .boolean b => some (.boolean b)
    | l => (integers vars).literal l
  identifier x :=
    match vars x with
    | some (.boolean b) => some (.boolean b)
    | _ => (integers vars).identifier x
  unary op v :=
    match op, v with
    | .not, .boolean b => some (.boolean !b)
    | op, v => (integers vars).unary op v
  binary op v w :=
    match v, w with
    | .boolean a, .boolean b => truthOp op a b
    | v, w => (integers vars).binary op v w

/-- There is no `*`, and `/` is the product, in 64 bits. -/
def productOp (op : BinaryOp) (a b : Int64) : Option (Scalar Int64) :=
  match op with
  | .div => some (.integer (a * b))
  | .plus => some (.integer (a + b))
  | .minus => some (.integer (a - b))
  | .less => some (.boolean (decide (a < b)))
  | .lessEq => some (.boolean (decide (a ≤ b)))
  | .greater => some (.boolean (decide (b < a)))
  | .greaterEq => some (.boolean (decide (b ≤ a)))
  | .eq => some (.boolean (a == b))
  | .notEq => some (.boolean (a != b))
  | .mult | .contains | .and | .or => none

/-- Booleans are there, but have no operators. -/
def products : Reading (Scalar Int64) where
  literal
    | .integer i => some (.integer i)
    | .boolean b => some (.boolean b)
    | _ => none
  identifier := vars
  unary op v :=
    match op, v with
    | .plus, .integer i => some (.integer i)
    | .minus, .integer i => some (.integer (-i))
    | _, _ => none
  binary op v w :=
    match v, w with
    | .integer a, .integer b => productOp op a b
    | _, _ => none

/-- What has a meaning in the first reading has the same one in the second. -/
structure Le {V : Type} (r r' : Reading V) : Prop where
  literal : ∀ {l v}, r.literal l = some v → r'.literal l = some v
  identifier : ∀ {x v}, r.identifier x = some v → r'.identifier x = some v
  unary : ∀ {op v w}, r.unary op v = some w → r'.unary op v = some w
  binary : ∀ {op v w u}, r.binary op v w = some u → r'.binary op v w = some u

theorem Le.refl {V : Type} (r : Reading V) : r.Le r := ⟨id, id, id, id⟩

theorem integers_le_truth : (integers vars).Le (truth vars) where
  literal {l v} h := by
    cases l <;> first | exact h | cases h
  identifier {x v} h := by
    have h' := h
    simp only [integers] at h'
    simp only [truth]
    split at h'
    next i hx =>
      rw [hx]
      exact h
    next => cases h'
  unary {op v w} h := by
    cases v with
    | integer i => cases op <;> exact h
    | boolean b => cases op <;> cases h
  binary {op v w u} h := by
    cases v <;> cases w <;> first | exact h | cases h

end Reading

/-! ## Entities that are scalars -/

/-- The entity is this scalar, in storage that exists. -/
def Scalar.At (h : Heap) (e : Entity) : Scalar Int64 → Prop
  | .integer i => ∃ a, e = .integer a ∧ a < h.next ∧ h.cell .integer a = i
  | .boolean b => ∃ a, e = .boolean a ∧ a < h.next ∧ h.cell .boolean a = b

def Scalar.isInteger {N : Type} : Scalar N → Bool
  | .integer _ => true
  | .boolean _ => false

def Scalar.value : Scalar Int64 → Value
  | .integer i => .node (.integer i) []
  | .boolean b => .node (.boolean b) []

theorem Scalar.At.hasValue_iff {h : Heap} {e : Entity} {v : Scalar Int64} (hv : v.At h e)
    (x : Value) : h.HasValue e x ↔ x = v.value := by
  have leaf : ∀ l, h.label e = l → h.graph.children e = [] →
      (h.HasValue e x ↔ x = .node l []) := by
    intro l hl hc
    constructor
    · rintro ⟨hx⟩
      rw [hc] at hx
      cases hx
      rw [← hl]
      rfl
    · rintro rfl
      rw [← hl]
      exact .node (hc ▸ .nil)
  cases v with
  | integer i =>
    obtain ⟨a, rfl, -, rfl⟩ := hv
    exact leaf _ rfl rfl
  | boolean b =>
    obtain ⟨a, rfl, -, rfl⟩ := hv
    exact leaf _ rfl rfl

/-- The variables that have a value here are scalars with these values. -/
def State.Holds (s : State) (vars : Identifier → Option (Scalar Int64)) : Prop :=
  ∀ x v, vars x = some v → ∃ e, s.findEntity x = some e ∧ v.At s.heap e

/-- Nothing has changed, but that there is new storage. -/
structure State.Extends (s t : State) : Prop where
  scopes : t.scopes = s.scopes
  heap : Heap.SameBut none s.heap t.heap

namespace State.Extends

variable {s t u : State}

theorem refl (s : State) : s.Extends s := ⟨rfl, .refl _ _⟩

theorem trans (h : s.Extends t) (h' : t.Extends u) : s.Extends u :=
  ⟨h'.scopes.trans h.scopes, h.heap.trans h'.heap⟩

theorem alloc (s : State) (k : Kind) (c : k.Content) : s.Extends (s.apply (.alloc k c)) :=
  ⟨rfl, s.heap.sameBut_alloc _ _ _⟩

theorem at_scalar (h : s.Extends t) {v : Scalar Int64} {e : Entity} (hv : v.At s.heap e) :
    v.At t.heap e := by
  cases v with
  | integer i =>
    obtain ⟨a, rfl, ha, hi⟩ := hv
    exact ⟨a, rfl, ha.trans_le h.heap.next, (h.heap.cell _ a ha nofun).trans hi⟩
  | boolean b =>
    obtain ⟨a, rfl, ha, hb⟩ := hv
    exact ⟨a, rfl, ha.trans_le h.heap.next, (h.heap.cell _ a ha nofun).trans hb⟩

theorem holds (h : s.Extends t) {vars : Identifier → Option (Scalar Int64)} (hs : s.Holds vars) :
    t.Holds vars := by
  intro x v hx
  obtain ⟨e, he, hv⟩ := hs x v hx
  refine ⟨e, ?_, h.at_scalar hv⟩
  rw [State.findEntity, h.scopes]
  exact he

end State.Extends

/-! ## What the interpreter makes of a reading -/

/-- An expression that is meant to be `v` has come out as `w`. Where it has not, it is a boolean in
place of an integer: there is no other way to get here with it. -/
def Fits (v : Scalar Int) (w : Option (Scalar Int64)) (h : Heap) (e : Entity) : Prop :=
  match w with
  | some w => w.At h e ∧ w.isInteger = v.isInteger
  | none => v.isInteger ∧ ∃ a, e = .boolean a

/-- What is meant to be `v` comes out as `w`, and where there is no `w`, is not the kind of value it
should be, if any. -/
structure YieldsAt (v : Scalar Int) (w : Option (Scalar Int64)) (s : State) (m : Eval Entity) :
    Prop where
  ok : w.isSome → ∃ e, (m s).exit = .ok e
  result : ∀ {e}, (m s).exit = .ok e → Fits v w (m.after s).heap e ∧ s.Extends (m.after s)

theorem Fits.extends {v : Scalar Int} {w : Option (Scalar Int64)} {s t : State} {e : Entity}
    (hf : Fits v w s.heap e) (h : s.Extends t) : Fits v w t.heap e := by
  cases w with
  | some w => exact ⟨h.at_scalar hf.1, hf.2⟩
  | none => exact hf

namespace YieldsAt

variable {v u : Scalar Int} {w : Option (Scalar Int64)} {s : State} {m : Eval Entity}

theorem throw {e : Exception} (h : (m s).exit = .throw e) : YieldsAt v none s m :=
  ⟨nofun, fun he => nomatch h.symm.trans he⟩

theorem pure {e : Entity} (h : Fits v w s.heap e) : YieldsAt v w s (pure e) := by
  constructor
  · exact fun _ => ⟨e, rfl⟩
  · intro e he
    cases he
    exact ⟨h, .refl s⟩

theorem integer {i : Int64} (hv : v.isInteger)
    (h : m s = ⟨.ok (.integer s.heap.next), [.alloc .integer i]⟩) :
    YieldsAt v (some (.integer i)) s m := by
  have after : m.after s = s.apply (.alloc .integer i) := by rw [Coroutine.after, h]; rfl
  constructor
  · exact fun _ => ⟨_, by rw [h]⟩
  · intro e he
    rw [h] at he
    cases he
    rw [after]
    refine ⟨⟨⟨_, rfl, Nat.lt_succ_self _, s.heap.alloc_cell_self _ _⟩, hv.symm⟩, .alloc s _ _⟩

theorem boolean {b : Bool} (hv : v.isInteger = false)
    (h : m s = ⟨.ok (.boolean s.heap.next), [.alloc .boolean b]⟩) :
    YieldsAt v (some (.boolean b)) s m := by
  have after : m.after s = s.apply (.alloc .boolean b) := by rw [Coroutine.after, h]; rfl
  constructor
  · exact fun _ => ⟨_, by rw [h]⟩
  · intro e he
    rw [h] at he
    cases he
    rw [after]
    refine ⟨⟨⟨_, rfl, Nat.lt_succ_self _, s.heap.alloc_cell_self _ _⟩, hv.symm⟩, .alloc s _ _⟩

/-- A boolean where an integer is meant. -/
theorem spoiled {b : Bool} (hv : v.isInteger)
    (h : m s = ⟨.ok (.boolean s.heap.next), [.alloc .boolean b]⟩) : YieldsAt v none s m := by
  have after : m.after s = s.apply (.alloc .boolean b) := by rw [Coroutine.after, h]; rfl
  refine ⟨(fun hw => by cases hw), fun he => ?_⟩
  rw [h] at he
  cases he
  rw [after]
  exact ⟨⟨hv, _, rfl⟩, .alloc s _ _⟩

theorem bind {f : Entity → Eval Entity} {g : Scalar Int64 → Option (Scalar Int64)}
    (hm : YieldsAt v w s m)
    (hf : ∀ e t, s.Extends t → Fits v w t.heap e → YieldsAt u (w.bind g) t (f e)) :
    YieldsAt u (w.bind g) s (m >>= f) := by
  constructor
  · intro hw
    obtain ⟨e, he⟩ := hm.ok (Option.isSome_of_isSome_bind hw)
    obtain ⟨hfit, hext⟩ := hm.result he
    obtain ⟨e', he'⟩ := (hf e _ hext hfit).ok hw
    exact ⟨e', by rw [Coroutine.bind_ok he]; exact he'⟩
  · intro e' he'
    obtain ⟨e, he, he'⟩ := Coroutine.of_bind_ok he'
    obtain ⟨hfit, hext⟩ := hm.result he
    obtain ⟨hfit', hext'⟩ := (hf e _ hext hfit).result he'
    rw [Coroutine.after_bind_ok he]
    exact ⟨hfit', hext.trans hext'⟩

end YieldsAt

/-! ## Operators -/

section Operators

open Reading

variable {vars : Identifier → Option (Scalar Int64)} {v v' u : Scalar Int}
  {w w' : Option (Scalar Int64)} {s : State} {x y : Entity}

/-- Booleans have no operators. -/
theorem binaryOp_boolean (op : BinaryOp) (a : Nat) (y : Entity) (s : State) :
    ∃ what, (evalBinaryOp op (.boolean a) y s).exit = .throw (.evaluation what) := ⟨_, rfl⟩

theorem binaryOp_integer_boolean (op : BinaryOp) (a b : Nat) (s : State) :
    ∃ what, (evalBinaryOp op (.integer a) (.boolean b) s).exit = .throw (.evaluation what) :=
  ⟨_, rfl⟩

theorem inRange_isInteger {i : Int} (h : inRange i = some u) : u.isInteger := by
  unfold inRange at h
  split at h
  · cases h
    rfl
  · cases h

/-- The operators of two integers, as the source has them. -/
theorem yields_integers {a b : Nat} {i j : Int} (op : BinaryOp) (h : exactOp op i j = some u) :
    YieldsAt u (productOp op (s.heap.cell .integer a) (s.heap.cell .integer b)) s
      (evalBinaryOp op (.integer a) (.integer b)) := by
  cases op with
  | mult => exact .spoiled (inRange_isInteger h) rfl
  | div =>
    simp only [exactOp] at h
    split at h
    · cases h
    · exact .integer (inRange_isInteger h) rfl
  | plus | minus => exact .integer (inRange_isInteger h) rfl
  | less | lessEq | greater | greaterEq | eq | notEq =>
    cases h
    exact .boolean rfl rfl
  | contains | and | or => cases h

theorem yields_binaryOp {op : BinaryOp} (hop : (truth vars).binary op v v' = some u)
    (hx : Fits v w s.heap x) (hy : Fits v' w' s.heap y) :
    YieldsAt u (w.bind fun a => w'.bind fun b => (products vars).binary op a b) s
      (evalBinaryOp op x y) := by
  cases w with
  | none =>
    obtain ⟨-, a, rfl⟩ := hx
    obtain ⟨what, run⟩ := binaryOp_boolean op a y s
    exact .throw run
  | some w =>
    obtain ⟨hx, hkind⟩ := hx
    cases w with
    | boolean b =>
      obtain ⟨a, rfl, -⟩ := hx
      obtain ⟨what, run⟩ := binaryOp_boolean op a y s
      have nothing : ((some (Scalar.boolean b)).bind fun a => w'.bind fun b =>
          (products vars).binary op a b) = none := by
        cases w' <;> rfl
      rw [nothing]
      exact .throw run
    | integer i =>
      obtain ⟨a, rfl, -, rfl⟩ := hx
      cases v with
      | boolean b => cases hkind
      | integer n =>
        cases v' with
        | boolean b => cases hop
        | integer n' =>
          cases w' with
          | none =>
            obtain ⟨-, b, rfl⟩ := hy
            obtain ⟨what, run⟩ := binaryOp_integer_boolean op a b s
            exact .throw run
          | some w' =>
            obtain ⟨hy, hkind'⟩ := hy
            cases w' with
            | boolean b => cases hkind'
            | integer j =>
              obtain ⟨b, rfl, -, rfl⟩ := hy
              exact yields_integers op hop

theorem yields_unaryOp {op : UnaryOperator} (hop : (truth vars).unary op v = some u)
    (hx : Fits v w s.heap x) :
    YieldsAt u (w.bind ((products vars).unary op)) s (evalUnaryOp op x) := by
  have spoiled : ∀ a, ∃ what,
      (evalUnaryOp op (.boolean a) s).exit = .throw (.evaluation what) := by
    intro a
    cases op <;> exact ⟨_, rfl⟩
  cases w with
  | none =>
    obtain ⟨-, a, rfl⟩ := hx
    obtain ⟨what, run⟩ := spoiled a
    exact .throw run
  | some w =>
    obtain ⟨hx, hkind⟩ := hx
    cases w with
    | boolean b =>
      obtain ⟨a, rfl, -⟩ := hx
      obtain ⟨what, run⟩ := spoiled a
      have nothing : ((some (Scalar.boolean b)).bind ((products vars).unary op)) = none := by
        cases op <;> rfl
      rw [nothing]
      exact .throw run
    | integer i =>
      obtain ⟨a, rfl, ha, rfl⟩ := hx
      cases v with
      | boolean b => cases hkind
      | integer n =>
        cases op with
        | plus =>
          cases hop
          exact .pure ⟨⟨a, rfl, ha, rfl⟩, rfl⟩
        | minus => exact .integer (inRange_isInteger hop) rfl
        | not => cases hop

/-- A term of a layer: its value is the right-hand side of the operator in front of it. -/
theorem YieldsAt.term {m : Eval Entity} {f : Entity → Eval Entity} {op : BinaryOp} {c : Scalar Int}
    {g : Scalar Int64 → Option (Scalar Int64)} (hs : s.Holds vars) (hx : Fits v w s.heap x)
    (hop : (truth vars).binary op v v' = some c) (hm : YieldsAt v' w' s m)
    (hf : ∀ t y w, t.Holds vars → Fits c w t.heap y → YieldsAt u (w.bind g) t (f y)) :
    YieldsAt u (w.bind fun a => w'.bind fun b => ((products vars).binary op a b).bind g) s
      (m >>= fun rhs => evalBinaryOp op x rhs >>= f) := by
  have order : (w.bind fun a => w'.bind fun b => ((products vars).binary op a b).bind g) =
      w'.bind fun b => (w.bind fun a => (products vars).binary op a b).bind g := by
    cases w <;> cases w' <;> rfl
  rw [order]
  refine hm.bind fun y t ht hy => ?_
  have order' : (w'.bind fun b => (w.bind fun a => (products vars).binary op a b).bind g) =
      (w.bind fun a => w'.bind fun b => (products vars).binary op a b).bind g := by
    cases w <;> cases w' <;> rfl
  rw [order']
  exact (yields_binaryOp hop (hx.extends ht) hy).bind fun z t' ht' hz =>
    hf t' z _ (ht'.holds (ht.holds hs)) hz

end Operators

/-! ## Expressions -/

section Expressions

open Reading

variable (host : Host) (invoke : WorkflowInvocation → Eval Entity)
  {vars : Identifier → Option (Scalar Int64)} {r : Reading (Scalar Int)} (hr : r.Le (truth vars))

theorem yields_literal {l : Literal} {v : Scalar Int} (h : (truth vars).literal l = some v)
    (s : State) : YieldsAt v ((products vars).literal l) s (evalLiteral l) := by
  cases l with
  | boolean b =>
    cases h
    exact .boolean rfl rfl
  | integer i =>
    cases h
    exact .integer rfl rfl
  | _ => cases h

theorem yields_identifier {x : Identifier} {v : Scalar Int}
    (h : (truth vars).identifier x = some v) {s : State} (hs : s.Holds vars) :
    YieldsAt v (vars x) s (evalIdentifierPath ⟨x, []⟩) := by
  have kind : ∃ w, vars x = some w ∧ w.isInteger = v.isInteger := by
    simp only [truth, integers] at h
    cases hx : vars x with
    | none =>
      rw [hx] at h
      cases h
    | some w =>
      rw [hx] at h
      cases w <;> cases h <;> exact ⟨_, rfl, rfl⟩
  obtain ⟨w, hw, hk⟩ := kind
  obtain ⟨e, he, hv⟩ := hs x w hw
  have run : evalIdentifierPath ⟨x, []⟩ s = (pure e : Eval Entity) s := by
    rw [evalIdentifierPath, Eval.gets, Coroutine.gets_bind, he]
    rfl
  have value : YieldsAt v (some w) s (pure e) := .pure ⟨hv, hk⟩
  rw [hw]
  constructor
  · rw [run]
    exact value.ok
  · rw [Coroutine.after, run]
    exact value.result

include hr

set_option linter.unusedSectionVars false

mutual

theorem yields_primary : ∀ (e : PrimaryExpression) {v : Scalar Int}, r.primary e = some v →
    ∀ s : State, s.Holds vars →
      YieldsAt v ((products vars).primary e) s (evalPrimary host invoke e)
  | .literal l, v, h, s, _ => by
    rw [evalPrimary, primary]
    rw [primary] at h
    exact yields_literal (hr.literal h) s
  | .identifierPath ⟨x, names⟩, v, h, s, hs => by
    rw [evalPrimary, primary]
    rw [primary] at h
    cases names with
    | nil => exact yields_identifier (hr.identifier h) hs
    | cons name names => cases h
  | .expression e, v, h, s, hs => by
    rw [evalPrimary, primary]
    rw [primary] at h
    exact yields_expression e h s hs
  | .functionCall _, v, h, _, _ | .array _, v, h, _, _ | .dictionary _, v, h, _, _
  | .awaitExpression _, v, h, _, _ | .tryExpression _, v, h, _, _ => by
    simp only [primary, reduceCtorEq] at h

theorem yields_unaryExpression : ∀ (e : UnaryExpression) {v : Scalar Int},
    r.unaryExpression e = some v → ∀ s : State, s.Holds vars →
      YieldsAt v ((products vars).unaryExpression e) s (evalUnary host invoke e)
  | .mk op e, v, h, s, hs => by
    rw [unaryExpression] at h
    obtain ⟨n, hn, h⟩ := Option.bind_eq_some_iff.1 h
    rw [evalUnary, unaryExpression]
    refine (yields_primary e hn s hs).bind fun x t ht hx => ?_
    cases op with
    | none =>
      cases h
      exact (Option.bind_fun_some _).symm ▸ .pure hx
    | some op => exact yields_unaryOp (hr.unary h) hx

theorem yields_multiplicative : ∀ (e : MultiplicativeExpression) {v : Scalar Int},
    r.multiplicative e = some v → ∀ s : State, s.Holds vars →
      YieldsAt v ((products vars).multiplicative e) s (evalMultiplicative host invoke e)
  | ⟨first, terms⟩, v, h, s, hs => by
    rw [multiplicative] at h
    obtain ⟨n, hn, h⟩ := Option.bind_eq_some_iff.1 h
    rw [evalMultiplicative, multiplicative]
    exact (yields_unaryExpression first hn s hs).bind fun x t ht hx =>
      yields_multiplicativeTerms terms h t x _ (ht.holds hs) hx

theorem yields_multiplicativeTerms :
    ∀ (terms : List (Operation UnaryExpression MultiplicativeOperator)) {v u : Scalar Int},
      r.multiplicativeTerms v terms = some u → ∀ (s : State) x w, s.Holds vars →
        Fits v w s.heap x → YieldsAt u (w.bind fun w => (products vars).multiplicativeTerms w terms)
          s (evalMultiplicativeTerms host invoke x terms)
  | [], v, u, h, s, x, w, _, hx => by
    rw [multiplicativeTerms] at h
    cases h
    rw [evalMultiplicativeTerms, funext fun w => multiplicativeTerms.eq_1 (products vars) w,
      Option.bind_fun_some]
    exact .pure hx
  | ⟨op, term⟩ :: terms, v, u, h, s, x, w, hs, hx => by
    rw [multiplicativeTerms] at h
    obtain ⟨n, hn, h⟩ := Option.bind_eq_some_iff.1 h
    obtain ⟨c, hc, h⟩ := Option.bind_eq_some_iff.1 h
    simp only [evalMultiplicativeTerms, multiplicativeTerms]
    exact .term hs hx (hr.binary hc) (yields_unaryExpression term hn s hs) fun t y w ht hy =>
      yields_multiplicativeTerms terms h t y w ht hy

theorem yields_additive : ∀ (e : AdditiveExpression) {v : Scalar Int},
    r.additive e = some v → ∀ s : State, s.Holds vars →
      YieldsAt v ((products vars).additive e) s (evalAdditive host invoke e)
  | ⟨first, terms⟩, v, h, s, hs => by
    rw [additive] at h
    obtain ⟨n, hn, h⟩ := Option.bind_eq_some_iff.1 h
    rw [evalAdditive, additive]
    exact (yields_multiplicative first hn s hs).bind fun x t ht hx =>
      yields_additiveTerms terms h t x _ (ht.holds hs) hx

theorem yields_additiveTerms :
    ∀ (terms : List (Operation MultiplicativeExpression AdditiveOperator)) {v u : Scalar Int},
      r.additiveTerms v terms = some u → ∀ (s : State) x w, s.Holds vars →
        Fits v w s.heap x → YieldsAt u (w.bind fun w => (products vars).additiveTerms w terms)
          s (evalAdditiveTerms host invoke x terms)
  | [], v, u, h, s, x, w, _, hx => by
    rw [additiveTerms] at h
    cases h
    rw [evalAdditiveTerms, funext fun w => additiveTerms.eq_1 (products vars) w,
      Option.bind_fun_some]
    exact .pure hx
  | ⟨op, term⟩ :: terms, v, u, h, s, x, w, hs, hx => by
    rw [additiveTerms] at h
    obtain ⟨n, hn, h⟩ := Option.bind_eq_some_iff.1 h
    obtain ⟨c, hc, h⟩ := Option.bind_eq_some_iff.1 h
    simp only [evalAdditiveTerms, additiveTerms]
    exact .term hs hx (hr.binary hc) (yields_multiplicative term hn s hs) fun t y w ht hy =>
      yields_additiveTerms terms h t y w ht hy

theorem yields_relational : ∀ (e : RelationalExpression) {v : Scalar Int},
    r.relational e = some v → ∀ s : State, s.Holds vars →
      YieldsAt v ((products vars).relational e) s (evalRelational host invoke e)
  | ⟨first, terms⟩, v, h, s, hs => by
    rw [relational] at h
    obtain ⟨n, hn, h⟩ := Option.bind_eq_some_iff.1 h
    rw [evalRelational, relational]
    exact (yields_additive first hn s hs).bind fun x t ht hx =>
      yields_relationalTerms terms h t x _ (ht.holds hs) hx

theorem yields_relationalTerms :
    ∀ (terms : List (Operation AdditiveExpression RelationalOperator)) {v u : Scalar Int},
      r.relationalTerms v terms = some u → ∀ (s : State) x w, s.Holds vars →
        Fits v w s.heap x → YieldsAt u (w.bind fun w => (products vars).relationalTerms w terms)
          s (evalRelationalTerms host invoke x terms)
  | [], v, u, h, s, x, w, _, hx => by
    rw [relationalTerms] at h
    cases h
    rw [evalRelationalTerms, funext fun w => relationalTerms.eq_1 (products vars) w,
      Option.bind_fun_some]
    exact .pure hx
  | ⟨op, term⟩ :: terms, v, u, h, s, x, w, hs, hx => by
    rw [relationalTerms] at h
    obtain ⟨n, hn, h⟩ := Option.bind_eq_some_iff.1 h
    obtain ⟨c, hc, h⟩ := Option.bind_eq_some_iff.1 h
    simp only [evalRelationalTerms, relationalTerms]
    exact .term hs hx (hr.binary hc) (yields_additive term hn s hs) fun t y w ht hy =>
      yields_relationalTerms terms h t y w ht hy

theorem yields_equality : ∀ (e : EqualityExpression) {v : Scalar Int},
    r.equality e = some v → ∀ s : State, s.Holds vars →
      YieldsAt v ((products vars).equality e) s (evalEquality host invoke e)
  | ⟨first, terms⟩, v, h, s, hs => by
    rw [equality] at h
    obtain ⟨n, hn, h⟩ := Option.bind_eq_some_iff.1 h
    rw [evalEquality, equality]
    exact (yields_relational first hn s hs).bind fun x t ht hx =>
      yields_equalityTerms terms h t x _ (ht.holds hs) hx

theorem yields_equalityTerms :
    ∀ (terms : List (Operation RelationalExpression EqualityOperator)) {v u : Scalar Int},
      r.equalityTerms v terms = some u → ∀ (s : State) x w, s.Holds vars →
        Fits v w s.heap x → YieldsAt u (w.bind fun w => (products vars).equalityTerms w terms)
          s (evalEqualityTerms host invoke x terms)
  | [], v, u, h, s, x, w, _, hx => by
    rw [equalityTerms] at h
    cases h
    rw [evalEqualityTerms, funext fun w => equalityTerms.eq_1 (products vars) w,
      Option.bind_fun_some]
    exact .pure hx
  | ⟨op, term⟩ :: terms, v, u, h, s, x, w, hs, hx => by
    rw [equalityTerms] at h
    obtain ⟨o, ho, ho'⟩ := Option.bind_eq_some_iff.1 h
    obtain ⟨n, hn, hn'⟩ := Option.bind_eq_some_iff.1 ho'
    obtain ⟨c, hc, hc'⟩ := Option.bind_eq_some_iff.1 hn'
    cases op <;> cases ho
    all_goals
      simp only [evalEqualityTerms, equalityTerms]
      exact .term hs hx (hr.binary hc) (yields_relational term hn s hs) fun t y w ht hy =>
        yields_equalityTerms terms hc' t y w ht hy

theorem yields_logical : ∀ (e : LogicalExpression) {v : Scalar Int},
    r.logical e = some v → ∀ s : State, s.Holds vars →
      YieldsAt v ((products vars).logical e) s (evalLogical host invoke e)
  | ⟨first, terms⟩, v, h, s, hs => by
    rw [logical] at h
    obtain ⟨n, hn, h⟩ := Option.bind_eq_some_iff.1 h
    rw [evalLogical, logical]
    exact (yields_equality first hn s hs).bind fun x t ht hx =>
      yields_logicalTerms terms h t x _ (ht.holds hs) hx

theorem yields_logicalTerms :
    ∀ (terms : List (Operation EqualityExpression LogicalOperator)) {v u : Scalar Int},
      r.logicalTerms v terms = some u → ∀ (s : State) x w, s.Holds vars →
        Fits v w s.heap x → YieldsAt u (w.bind fun w => (products vars).logicalTerms w terms)
          s (evalLogicalTerms host invoke x terms)
  | [], v, u, h, s, x, w, _, hx => by
    rw [logicalTerms] at h
    cases h
    rw [evalLogicalTerms, funext fun w => logicalTerms.eq_1 (products vars) w,
      Option.bind_fun_some]
    exact .pure hx
  | ⟨op, term⟩ :: terms, v, u, h, s, x, w, hs, hx => by
    rw [logicalTerms] at h
    obtain ⟨n, hn, h⟩ := Option.bind_eq_some_iff.1 h
    obtain ⟨c, hc, h⟩ := Option.bind_eq_some_iff.1 h
    simp only [evalLogicalTerms, logicalTerms]
    exact .term hs hx (hr.binary hc) (yields_equality term hn s hs) fun t y w ht hy =>
      yields_logicalTerms terms h t y w ht hy

theorem yields_expression : ∀ (e : Expression) {v : Scalar Int}, r.expression e = some v →
    ∀ s : State, s.Holds vars →
      YieldsAt v ((products vars).expression e) s (evalExpression host invoke e)
  | .mk e, v, h, s, hs => by
    rw [expression] at h
    rw [evalExpression, expression]
    exact yields_logical e h s hs

end

end Expressions

/-! ## The laws -/

def Ast.UnaryExpression.number (i : Int64) : UnaryExpression := .mk none (.literal (.integer i))

def Ast.MultiplicativeExpression.number (i : Int64) : MultiplicativeExpression := ⟨.number i, []⟩

/-- What is exact in 64 bits. -/
def Scalar.toInt64 : Scalar Int → Scalar Int64
  | .integer i => .integer (.ofInt i)
  | .boolean b => .boolean b

/-- The evaluation of the expression succeeds, with this value. -/
def EvaluatesTo (host : Host) (depth : Nat) (s : State) (e : Expression) (v : Scalar Int64) :
    Prop :=
  ∃ x, (runExpression host depth e s).exit = .ok x ∧
    ((runExpression host depth e).after s).heap.HasValue x v.value

theorem value_inj {v w : Scalar Int64} (h : v.value = w.value) : v = w := by
  cases v <;> cases w <;> cases h <;> rfl

/-- An entity that is a boolean does not have the value of an integer. -/
theorem not_hasValue_boolean {h : Heap} {a : Nat} {v : Scalar Int} (hv : v.isInteger) :
    ¬ h.HasValue (.boolean a) v.toInt64.value := by
  intro hx
  cases v with
  | integer i => exact nomatch hx.label
  | boolean b => cases hv

section Laws

open Reading

variable {vars : Identifier → Option (Scalar Int64)} {r : Reading (Scalar Int)} (host : Host)
  (depth : Nat)

def noVariables : Identifier → Option (Scalar Int64) := fun _ => none

theorem noVariables_hold (s : State) : s.Holds noVariables := nofun

/-- **An expression comes out as it is meant exactly where it does so with the operators there
are.** -/
theorem evaluatesTo_iff (hr : r.Le (truth vars)) {s : State} (hs : s.Holds vars) {e : Expression}
    {v : Scalar Int} (he : r.expression e = some v) :
    EvaluatesTo host depth s e v.toInt64 ↔ (products vars).expression e = some v.toInt64 := by
  have yields := yields_expression host (evalInvocations host depth) hr e he s hs
  constructor
  · rintro ⟨x, hx, hv⟩
    obtain ⟨fits, -⟩ := yields.result hx
    cases hw : (products vars).expression e with
    | none =>
      rw [hw] at fits
      obtain ⟨hi, a, rfl⟩ := fits
      exact absurd hv (not_hasValue_boolean hi)
    | some w =>
      rw [hw] at fits
      rw [value_inj ((fits.1.hasValue_iff _).1 hv)]
  · intro hw
    obtain ⟨x, hx⟩ := yields.ok (by rw [hw]; rfl)
    obtain ⟨fits, -⟩ := yields.result hx
    rw [hw] at fits
    exact ⟨x, hx, (fits.1.hasValue_iff _).2 rfl⟩

/-- **Integer expressions are evaluated arithmetically exactly where there is no `*`, and the value
is the same with every `/` taken for the product.** -/
theorem integers_evaluated_iff {s : State} (hs : s.Holds vars) {e : Expression} {v : Scalar Int}
    (he : (integers vars).expression e = some v) :
    EvaluatesTo host depth s e v.toInt64 ↔ (products vars).expression e = some v.toInt64 :=
  evaluatesTo_iff host depth (integers_le_truth vars) hs he

/-- The id of a new interpreter. -/
def instanceId (x : Identifier) : Option (Scalar Int64) :=
  if x = "instance_id" then some (.integer 1) else none

theorem instanceId_holds : (State.fresh []).Holds instanceId := by
  intro x v hx
  obtain ⟨rfl, hv⟩ := Option.ite_none_right_eq_some.mp hx
  cases hv
  exact ⟨.integer 1, rfl, 1, rfl, by decide, rfl⟩

/-- `8 / instance_id - 2` -/
def difference : AdditiveExpression :=
  let instanceId : UnaryExpression := .mk none (.identifierPath ⟨"instance_id", []⟩)
  ⟨⟨.number 8, [⟨.div, instanceId⟩]⟩, [⟨.minus, MultiplicativeExpression.number 2⟩]⟩

/-- `8 / instance_id - 2 < 7` -/
def bounded : Expression :=
  .mk ⟨⟨⟨difference, [⟨.less, ⟨MultiplicativeExpression.number 7, []⟩⟩]⟩, []⟩, []⟩

theorem difference_evaluated : (integers instanceId).expression bounded = some (.boolean true) ∧
    EvaluatesTo .plain 0 (.fresh []) bounded (.boolean true) :=
  ⟨rfl, (integers_evaluated_iff (v := .boolean true) .plain 0 instanceId_holds rfl).2 rfl⟩

/-- `6 / 2` -/
def quotient : Expression := .mk ⟨⟨⟨⟨⟨.number 6, [⟨.div, .number 2⟩]⟩, []⟩, []⟩, []⟩, []⟩

/-- A quotient is multiplied out. -/
theorem quotient_multiplied : (integers noVariables).expression quotient = some (.integer 3) ∧
    ¬ EvaluatesTo .plain 0 (.fresh []) quotient (.integer 3) ∧
    EvaluatesTo .plain 0 (.fresh []) quotient (.integer 12) := by
  have product : (products noVariables).expression quotient = some (.integer 12) := rfl
  refine ⟨rfl, ?_, ?_⟩
  · intro h
    have he := (evaluatesTo_iff (v := .integer 3) .plain 0 (integers_le_truth noVariables)
      (noVariables_hold _) rfl).1 h
    rw [product] at he
    cases he
  · exact ⟨_, rfl, Scalar.At.hasValue_iff (v := .integer 12) ⟨_, rfl, by decide, rfl⟩ _ |>.2 rfl⟩

/-- **Boolean expressions are evaluated by truth tables exactly where booleans are only read or
compared to, never operated on.** -/
theorem booleans_evaluated_iff {s : State} (hs : s.Holds vars) {e : Expression} {b : Bool}
    (he : (truth vars).expression e = some (.boolean b)) :
    EvaluatesTo host depth s e (.boolean b) ↔
      (products vars).expression e = some (.boolean b) :=
  evaluatesTo_iff host depth (.refl _) hs he

/-- `8 / instance_id - 2 == 3 + 3` -/
def comparison : Expression :=
  let three := MultiplicativeExpression.number 3
  .mk ⟨⟨⟨difference, []⟩, [⟨.eq, ⟨⟨three, [⟨.plus, three⟩]⟩, []⟩⟩]⟩, []⟩

theorem comparison_evaluated : EvaluatesTo .plain 0 (.fresh []) comparison (.boolean true) :=
  (booleans_evaluated_iff (b := true) .plain 0 instanceId_holds rfl).2 rfl

/-- `not true` -/
def negation : Expression :=
  .mk ⟨⟨⟨⟨⟨.mk (some .not) (.literal (.boolean true)), []⟩, []⟩, []⟩, []⟩, []⟩

/-- There is no `not` for booleans. -/
theorem negation_fails : (truth noVariables).expression negation = some (.boolean false) ∧
    ¬ EvaluatesTo .plain 0 (.fresh []) negation (.boolean false) := by
  refine ⟨rfl, ?_⟩
  rintro ⟨x, hx, -⟩
  have run : (runExpression .plain 0 negation (.fresh [])).exit =
    .throw (.evaluation "No matching for operator '!' for type 'boolean'") := rfl
  rw [run] at hx
  cases hx

end Laws

end EzCpp.Flow
