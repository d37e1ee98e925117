import EzCpp.Flow.Splitting

/-!
# Where an expression ends

An `await` and a `try` end with an expression, which goes on as far as it can: what follows them is
no operator, and so they are the last operands of the expressions they stand in (`GreedyLast`). The
printed text of an expression with such operands is read back as well, up to any word that goes on
with no expression (`reads_readable`), and whatever the rule for expressions reads is of this form
(`readable_of_expression`).
-/

namespace EzCpp.Flow.Ast

/-- What takes all the operators after it. -/
def PrimaryExpression.greedy : PrimaryExpression → Bool
  | .awaitExpression _ => true
  | .tryExpression _ => true
  | _ => false

def GreedyLast (e : Expression) : Prop := ∀ u ∈ e.unaries.dropLast, u.primary.greedy = false

end EzCpp.Flow.Ast

namespace EzCpp.Flow.Grammar

open EzCpp.Lib Ast Parser

variable {α : Type} {reals : Reals} {n : Nat} {t : List Char} {rest : List String}

/-- The expression, and those in it, have their greedy operands at the end. -/
def Greedy (e : Expression) : Prop :=
  GreedyLast e ∧ ∀ p, Occurs p e → ∀ c ∈ p.children, GreedyLast c

theorem greedy_iff {e : Expression} :
    Greedy e ↔ GreedyLast e ∧ ∀ u ∈ e.unaries, ∀ c ∈ u.primary.children, Greedy c := by
  rw [Greedy, forall_occurs_iff]
  refine and_congr_right fun _ => forall₂_congr fun u _ => ?_
  rw [← forall₂_and]
  rfl

/-- What an expression is that is printed and read back. -/
structure Readable (e : Expression) : Prop where
  greedy : Greedy e
  legible : LegibleExpression e

theorem Readable.child {e c : Expression} {u : UnaryExpression} (h : Readable e) (hu : u ∈ e.unaries)
    (hc : c ∈ u.primary.children) : Readable c :=
  ⟨(greedy_iff.mp h.greedy).2 u hu c hc, fun p hp => h.legible p (.within hu hc hp)⟩

/-- The words and the numbers of an expression are printed and read back. -/
def Spelt (e : Expression) : Prop := ∀ p, Occurs p e → Begun p

theorem Spelt.child {e c : Expression} {u : UnaryExpression} (h : Spelt e) (hu : u ∈ e.unaries)
    (hc : c ∈ u.primary.children) : Spelt c := fun p hp => h p (.within hu hc hp)

theorem Begun.writable {p : PrimaryExpression} (h : Begun p) (hp : p.greedy = false) : Writable p := by
  cases p with
  | awaitExpression e => cases hp
  | tryExpression e => cases hp
  | _ => exact h

/-! ## Reading greedy operands -/

section Reading

variable {F : List String}

theorem reads_await {e : AwaitExpression}
    (he : Reads (expression reals n) e.expression (expressionTokens e.expression) ["for"])
    (hd : Reads (expression reals n) e.duration (expressionTokens e.duration) F) :
    Reads (primaryExpr reals n (expression reals n)) (.awaitExpression e)
      (primaryTokens (.awaitExpression e)) F := by
  intro t rest hrest ht
  obtain ⟨e, duration⟩ := e
  rw [primaryTokens] at ht
  simp only [List.cons_append, List.append_assoc] at ht
  have hfor : Follows ["for"] ("for" :: (expressionTokens duration ++ rest)) := fun w hw => by
    cases hw
    exact List.mem_cons_self
  have hawait : awaitExpression (expression reals n) t = .ok ⟨e, duration⟩ (spaced rest) :=
    (bind_ok (ht.lit_ok (by decide))).trans ((bind_ok (he _ _ hfor begins_spaced)).trans
      ((bind_ok (begins_spaced.lit_ok (by decide))).trans (bind_ok (hd _ _ hrest begins_spaced))))
  exact firstOf_ok (bind_ok hawait)

theorem reads_try {e : Expression} (he : Reads (expression reals n) e (expressionTokens e) F) :
    Reads (primaryExpr reals n (expression reals n)) (.tryExpression e)
      (primaryTokens (.tryExpression e)) F := by
  intro t rest hrest ht
  rw [primaryTokens, List.cons_append] at ht
  have hawait : awaitExpression (expression reals n) t = .fail :=
    awaitExpression_fail (ht.lit_fail (by decide) (by decide) fun w hw => by cases hw; decide)
  have htry : tryExpression (expression reals n) t = .ok e (spaced rest) :=
    (bind_ok (ht.lit_ok (by decide))).trans (he _ _ hrest begins_spaced)
  rw [primaryExpr, firstOf_fail (bind_fail hawait)]
  exact firstOf_ok (bind_ok htry)

theorem reads_greedy {p : PrimaryExpression} (hF : Closing F) (hp : p.greedy = true)
    (hlen : (primaryTokens p).length ≤ n + 1)
    (hchild : ∀ c ∈ p.children, ∀ G, Closing G → (expressionTokens c).length ≤ n →
      Reads (expression reals n) c (expressionTokens c) G) :
    Reads (primaryExpr reals n (expression reals n)) p (primaryTokens p) F := by
  cases p with
  | awaitExpression e =>
    obtain ⟨e, duration⟩ := e
    simp only [primaryTokens, List.length_cons, List.length_append] at hlen
    refine reads_await (hchild e ?_ ["for"] (by decide) (by omega))
      (hchild duration ?_ F hF (by omega))
    · exact List.mem_cons_self
    · exact List.mem_cons_of_mem _ List.mem_cons_self
  | tryExpression e =>
    rw [primaryTokens, List.length_cons] at hlen
    exact reads_try (hchild e List.mem_cons_self F hF (by omega))
  | _ => cases hp

/-- **Whatever is readable is read**, up to any words that go on with no expression. -/
theorem reads_readable (e : Expression) (hF : Closing F) (hlen : (expressionTokens e).length ≤ n)
    (hw : Spelt e) (hr : Readable e) : Reads (expression reals n) e (expressionTokens e) F := by
  induction n generalizing e F with
  | zero =>
    exact absurd (List.length_eq_zero_iff.mp (Nat.le_zero.mp hlen)) (expressionTokens_ne_nil e)
  | succ n ih =>
    have hoperand : ∀ u ∈ e.unaries, u.primary.greedy = false → (unaryTokens u).length ≤ n + 1 →
        Reads (unaryExpr reals n (expression reals n)) u (unaryTokens u) (afterOperand F) := by
      intro u hu hgreedy hulen
      refine reads_operand hF ((hw _ (.here hu rfl)).writable hgreedy) (hr.legible _ (.here hu rfl)) hulen
        fun c hc => ⟨?_, fun hclen => ?_⟩
      · exact hw _ (.within hu hc (.here (firstUnary_mem c) rfl))
      · exact ih c (by decide) hclen (hw.child hu hc) (hr.child hu hc)
    refine reads_layers hF hlen (fun u hu hulen => ?_) fun u hu hulen => ?_
    · exact hoperand u (List.dropLast_subset _ hu) (hr.greedy.1 u hu) hulen
    · have hu := List.mem_of_getLast? hu
      by_cases hgreedy : u.primary.greedy = true
      · refine reads_unary (hw _ (.here hu rfl)) (reads_greedy hF hgreedy
          ((length_primaryTokens_le u).trans hulen) fun c hc G hG hclen => ?_)
        exact ih c hG hclen (hw.child hu hc) (hr.child hu hc)
      · exact (hoperand u hu (by simpa using hgreedy) hulen).mono fun w hw =>
          mem_afterOperand.mpr (.inl hw)

end Reading

/-! ## What the rules take -/

theorem consumes_lexeme {p : Parser α} (hp : Consumes p) : Consumes (lexeme p) :=
  fun t _ _ h => (hp h).trans_le (skip_suffix t).length_le

theorem consumes_lit {s : String} (hs : s.toList ≠ []) : Consumes (lit s) := consumes_lexeme (.text hs)

theorem consumes_symbol {table : List (String × α)} (ht : ∀ e ∈ table, e.1.toList ≠ []) :
    Consumes (symbol table) := consumes_lexeme (.symbols ht)

theorem consumes_identifier : Consumes identifier :=
  Shortens.notAhead.bind_consumes fun _ => consumes_lexeme fun t w r h => by
    obtain ⟨rfl, ⟨c, cs, hw, -⟩, -⟩ := of_identifierBase_ok h
    rw [hw, List.length_append, List.length_cons]
    omega

theorem consumes_identifierPath : Consumes (identifierPath n) :=
  consumes_identifier.bind fun _ =>
    ((shortens_lit ".").bind fun _ => shortens_identifier).many.bind fun _ => .pure _

theorem consumes_quoted (quote : Char) : Consumes (quoted quote) := by
  intro t s r h
  cases t with
  | nil => cases h
  | cons c t =>
    simp only [quoted] at h
    split at h
    next =>
      split at h
      next => cases h
      next d rest hd =>
        cases h
        have hs : d :: r <:+ t := hd ▸ List.dropWhile_suffix _
        exact Nat.lt_succ_of_lt hs.length_le
    next => cases h

theorem length_dropWhile_lt {p : Char → Bool} (h : t.takeWhile p ≠ []) :
    (t.dropWhile p).length < t.length := by
  have hpos := List.length_pos_iff.mpr h
  have hlen := congrArg List.length (List.takeWhile_append_dropWhile (p := p) (l := t))
  rw [List.length_append] at hlen
  omega

theorem consumes_digits (bound : Nat) : Consumes (digits bound) := by
  intro t i r h
  simp only [digits] at h
  split at h
  next => cases h
  next hds =>
    cases h
    exact length_dropWhile_lt fun hnil => hds (.inl hnil)

theorem consumes_integer : Consumes integer := by
  refine consumes_lexeme fun t i r h => ?_
  split at h
  next => exact Nat.lt_succ_of_lt ((consumes_digits _).bind (fun _ => .pure _) h)
  next => exact Nat.lt_succ_of_lt ((consumes_digits _).bind (fun _ => .pure _) h)
  next => exact (consumes_digits _).bind (fun _ => .pure _) h

theorem noCase_lt {l : Char} {ls r : List Char} (h : noCase (l :: ls) t = some r) :
    r.length < t.length := by
  cases t with
  | nil => cases h
  | cons c t =>
    unfold noCase at h
    split at h
    next => exact Nat.lt_succ_of_le (noCase_suffix h).length_le
    next => cases h

theorem nan_lt {r : List Char} (h : nan t = some r) : r.length < t.length := by
  unfold nan at h
  obtain ⟨u, hu, h⟩ := Option.bind_eq_some_iff.mp h
  refine Nat.lt_of_le_of_lt ?_ (noCase_lt hu)
  split at h
  next inside =>
    cases hd : inside.dropWhile (· ≠ ')') with
    | nil => rw [hd] at h; cases h
    | cons c v =>
      rw [hd] at h
      cases h
      have hs : c :: r <:+ inside := hd ▸ List.dropWhile_suffix _
      exact ((List.suffix_cons c r).trans hs).length_le.trans (Nat.le_succ _)
  next =>
    cases h
    exact Nat.le_refl _

theorem infinity_lt {r : List Char} (h : infinity t = some r) : r.length < t.length := by
  unfold infinity at h
  obtain ⟨u, hu, rfl⟩ := Option.map_eq_some_iff.mp h
  refine Nat.lt_of_le_of_lt ?_ (noCase_lt hu)
  cases hi : noCase ['i', 'n', 'i', 't', 'y'] u with
  | none => exact Nat.le_refl _
  | some v => exact (noCase_suffix hi).length_le

theorem numeral_lt {r : List Char} (h : numeral t = some r) : r.length < t.length := by
  have hdrop : (t.dropWhile Char.isDigit).length ≤ t.length := (List.dropWhile_suffix _).length_le
  simp only [numeral] at h
  split at h
  next u hu =>
    rw [hu, List.length_cons] at hdrop
    refine Nat.lt_of_le_of_lt ?_ hdrop
    split at h
    next => cases h
    next =>
      have hu : (u.dropWhile Char.isDigit).length ≤ u.length := (List.dropWhile_suffix _).length_le
      split at h
      next v hv =>
        exact ((exponent_suffix h).trans (exponentLetter_suffix hv)).length_le.trans hu
      next =>
        cases h
        exact hu
  next =>
    split at h
    next => cases h
    next hds =>
      obtain ⟨v, hv, h⟩ := Option.bind_eq_some_iff.mp h
      exact Nat.lt_of_le_of_lt ((exponent_suffix h).trans (exponentLetter_suffix hv)).length_le
        (length_dropWhile_lt hds)

theorem consumes_unsignedReal : Consumes (unsignedReal reals) := by
  intro t x r h
  unfold unsignedReal at h
  split at h
  next hn =>
    obtain ⟨u, hu⟩ := Option.isSome_iff_exists.mp hn.2
    rw [hu] at h
    cases h
    exact nan_lt hu
  next =>
    split at h
    next hi =>
      obtain ⟨u, hu⟩ := Option.isSome_iff_exists.mp hi.2
      rw [hu] at h
      cases h
      exact infinity_lt hu
    next =>
      split at h
      next => cases h
      next rest hrest =>
        split at h
        next => cases h
        next =>
          cases h
          exact numeral_lt hrest

theorem consumes_real : Consumes (real reals) := by
  refine consumes_lexeme fun t x r h => ?_
  split at h
  next => exact Nat.lt_succ_of_lt (consumes_unsignedReal.bind (fun _ => .pure _) h)
  next => exact Nat.lt_succ_of_lt (consumes_unsignedReal h)
  next => exact consumes_unsignedReal h

theorem consumes_literal : Consumes (literal reals) := by
  refine .firstOf fun p hp => ?_
  simp only [List.mem_cons, List.not_mem_nil, or_false] at hp
  rcases hp with rfl | rfl | rfl | rfl | rfl
  · refine Consumes.bind (.firstOf fun p hp => ?_) fun _ => .pure _
    simp only [List.mem_cons, List.not_mem_nil, or_false] at hp
    rcases hp with rfl | rfl
    · exact consumes_lexeme (consumes_quoted _)
    · exact consumes_lexeme (consumes_quoted _)
  · exact (consumes_symbol (by decide)).bind fun _ => .pure _
  · exact (consumes_lexeme ((consumes_digits _).bind fun _ =>
      (Shortens.symbols _).bind fun _ => .pure _)).bind fun _ => .pure _
  · exact consumes_real.bind fun _ => .pure _
  · exact consumes_integer.bind fun _ => .pure _

section Rules

variable {expression : Parser Expression} (he : Shortens expression)
include he

theorem consumes_primaryExpr : Consumes (primaryExpr reals n expression) := by
  refine .firstOf fun p hp => ?_
  simp only [List.mem_cons, List.not_mem_nil, or_false] at hp
  rcases hp with rfl | rfl | rfl | rfl | rfl | rfl | rfl | rfl
  · exact ((consumes_lit (by decide)).bind fun _ => he.bind fun _ => (shortens_lit _).bind fun _ =>
      he.bind fun _ => .pure _).bind fun _ => .pure _
  · exact ((consumes_lit (by decide)).bind fun _ => he).bind fun _ => .pure _
  · exact consumes_literal.bind fun _ => .pure _
  · exact (consumes_identifierPath.bind fun _ => (shortens_lit _).bind fun _ =>
      (Shortens.list (shortens_lit _) (shortens_functionArgument he)).option.bind fun _ =>
        (shortens_lit _).bind fun _ => .pure _).bind fun _ => .pure _
  · exact consumes_identifierPath.bind fun _ => .pure _
  · exact ((consumes_lit (by decide)).bind fun _ => (Shortens.list (shortens_lit _) he).option.bind
      fun _ => (shortens_lit _).bind fun _ => .pure _).bind fun _ => .pure _
  · exact ((consumes_lit (by decide)).bind fun _ =>
      (Shortens.list (shortens_lit _) (shortens_assignment he)).option.bind fun _ =>
        (shortens_lit _).bind fun _ => .pure _).bind fun _ => .pure _
  · exact ((consumes_lit (by decide)).bind fun _ => he.expect.bind fun _ => (shortens_lit _).expect.bind
      fun _ => .pure _).bind fun _ => .pure _

theorem consumes_unaryExpr : Consumes (unaryExpr reals n expression) :=
  (shortens_symbol _).option.bind_consumes fun _ => (consumes_primaryExpr he).bind fun _ => .pure _

/-- The rule takes `c` off a text shorter than `t`. -/
def Takes (expression : Parser Expression) (t : List Char) (c : Expression) (r : List Char) : Prop :=
  ∃ u, u.length < t.length ∧ expression u = .ok c r

omit he in
theorem Takes.of_suffix {u v r : List Char} {c : Expression} (hu : u.length < t.length) (hv : v <:+ u)
    (h : expression v = .ok c r) : Takes expression t c r := ⟨v, hv.length_le.trans_lt hu, h⟩

/-- The expressions in a primary expression are taken off shorter texts, and the last one of a greedy
expression is the end of it. -/
theorem primaryExpr_children {p : PrimaryExpression} {r : List Char}
    (h : primaryExpr reals n expression t = .ok p r) :
    (∀ c ∈ p.children, ∃ v, Takes expression t c v) ∧
      (p.greedy = true → ∃ c ∈ p.children, Takes expression t c r) := by
  rcases of_firstOf_cons h with h | ⟨-, h⟩
  · obtain ⟨e, _, h, hr⟩ := of_bind_ok h
    cases hr
    obtain ⟨_, u, hawait, h⟩ := of_bind_ok h
    obtain ⟨x, v, hx, h⟩ := of_bind_ok h
    obtain ⟨_, w, hfor, h⟩ := of_bind_ok h
    obtain ⟨d, _, hd, hr⟩ := of_bind_ok h
    cases hr
    have hu : u.length < t.length := consumes_lit (by decide) hawait
    have hduration : Takes expression t d r := .of_suffix hu ((shortens_lit _ hfor).trans (he hx)) hd
    exact ⟨List.forall_mem_cons.mpr ⟨⟨v, .of_suffix hu (List.suffix_refl _) hx⟩,
      List.forall_mem_singleton.mpr ⟨r, hduration⟩⟩,
      fun _ => ⟨d, List.mem_cons_of_mem _ List.mem_cons_self, hduration⟩⟩
  rcases of_firstOf_cons h with h | ⟨-, h⟩
  · obtain ⟨e, _, h, hr⟩ := of_bind_ok h
    cases hr
    obtain ⟨_, u, htry, he'⟩ := of_bind_ok h
    have hu : u.length < t.length := consumes_lit (by decide) htry
    have htakes : Takes expression t e r := .of_suffix hu (List.suffix_refl _) he'
    exact ⟨List.forall_mem_singleton.mpr ⟨r, htakes⟩, fun _ => ⟨e, List.mem_cons_self, htakes⟩⟩
  rcases of_firstOf_cons h with h | ⟨-, h⟩
  · obtain ⟨_, _, -, hr⟩ := of_bind_ok h
    cases hr
    exact ⟨nofun, nofun⟩
  rcases of_firstOf_cons h with h | ⟨-, h⟩
  · obtain ⟨call, _, h, hr⟩ := of_bind_ok h
    cases hr
    obtain ⟨path, u, hpath, h⟩ := of_bind_ok h
    obtain ⟨_, v, hopen, h⟩ := of_bind_ok h
    obtain ⟨arguments, _, hargs, h⟩ := of_bind_ok h
    obtain ⟨_, _, -, hr⟩ := of_bind_ok h
    cases hr
    have hv : v.length < t.length :=
      (shortens_lit _ hopen).length_le.trans_lt (consumes_identifierPath hpath)
    refine ⟨fun c hc => ?_, nofun⟩
    obtain ⟨a, ha, rfl⟩ := List.mem_map.mp hc
    rcases of_option_ok hargs with ⟨as, rfl, has⟩ | ⟨rfl, -, -⟩
    · obtain ⟨w, x, hw, ha⟩ := of_mem_list (shortens_lit _) (shortens_functionArgument he) has a ha
      obtain ⟨name, y, hname, ha⟩ := of_bind_ok ha
      obtain ⟨value, z, hvalue, hr⟩ := of_bind_ok ha
      cases hr
      have hy : y <:+ w :=
        (shortens_identifier.bind fun _ => (shortens_lit _).bind fun _ => .pure _).option hname
      exact ⟨_, .of_suffix hv (hy.trans hw) hvalue⟩
    · cases ha
  rcases of_firstOf_cons h with h | ⟨-, h⟩
  · obtain ⟨_, _, -, hr⟩ := of_bind_ok h
    cases hr
    exact ⟨nofun, nofun⟩
  rcases of_firstOf_cons h with h | ⟨-, h⟩
  · obtain ⟨elements, _, h, hr⟩ := of_bind_ok h
    cases hr
    obtain ⟨_, u, hopen, h⟩ := of_bind_ok h
    obtain ⟨es, _, hes, h⟩ := of_bind_ok h
    obtain ⟨_, _, -, hr⟩ := of_bind_ok h
    cases hr
    refine ⟨fun c hc => ?_, nofun⟩
    rcases of_option_ok hes with ⟨as, rfl, has⟩ | ⟨rfl, -, -⟩
    · obtain ⟨w, x, hw, hc⟩ := of_mem_list (shortens_lit _) he has c hc
      exact ⟨x, .of_suffix (consumes_lit (by decide) hopen) hw hc⟩
    · cases hc
  rcases of_firstOf_cons h with h | ⟨-, h⟩
  · obtain ⟨elements, _, h, hr⟩ := of_bind_ok h
    cases hr
    obtain ⟨_, u, hopen, h⟩ := of_bind_ok h
    obtain ⟨es, _, hes, h⟩ := of_bind_ok h
    obtain ⟨_, _, -, hr⟩ := of_bind_ok h
    cases hr
    refine ⟨fun c hc => ?_, nofun⟩
    obtain ⟨a, ha, rfl⟩ := List.mem_map.mp hc
    rcases of_option_ok hes with ⟨as, rfl, has⟩ | ⟨rfl, -, -⟩
    · obtain ⟨w, x, hw, ha⟩ := of_mem_list (shortens_lit _) (shortens_assignment he) has a ha
      obtain ⟨name, y, hname, ha⟩ := of_bind_ok ha
      obtain ⟨_, z, hequals, ha⟩ := of_bind_ok ha
      obtain ⟨value, _, hvalue, hr⟩ := of_bind_ok ha
      cases hr
      have hz : z <:+ w := (shortens_lit _ hequals).trans (shortens_identifier hname)
      exact ⟨_, .of_suffix (consumes_lit (by decide) hopen) (hz.trans hw) hvalue⟩
    · cases ha
  rcases of_firstOf_cons h with h | ⟨-, h⟩
  · obtain ⟨e, _, h, hr⟩ := of_bind_ok h
    cases hr
    obtain ⟨_, u, hopen, h⟩ := of_bind_ok h
    obtain ⟨x, v, hx, h⟩ := of_bind_ok h
    obtain ⟨_, _, -, hr⟩ := of_bind_ok h
    cases hr
    exact ⟨List.forall_mem_singleton.mpr
      ⟨v, .of_suffix (consumes_lit (by decide) hopen) (List.suffix_refl _) (of_expect_ok hx)⟩, nofun⟩
  · cases h

end Rules

/-! ## What follows the operands -/

section Layers

variable {Operator : Type} {table : List (String × Operator)} {term : Parser α}

theorem mem_dropLast_or_getLast {l : List α} {a : α} (h : a ∈ l) : a ∈ l.dropLast ∨ a ∈ l.getLast? := by
  rcases List.eq_nil_or_concat l with rfl | ⟨l, b, rfl⟩
  · cases h
  · rw [List.concat_eq_append] at h ⊢
    rw [List.dropLast_concat, List.getLast?_concat]
    simpa [eq_comm] using h

theorem consumes_binaryExpr (ht : Shortens term) (hc : Consumes term) :
    Consumes (binaryExpr n table term) :=
  hc.bind fun _ => ((shortens_symbol _).bind fun _ => ht.expect.bind fun _ => .pure _).many.bind
    fun _ => .pure _

/-- After an operand that is not the last one stands an operator of its layer. -/
theorem of_operations {first : α} {terms : List (Operation α Operator)} {m : Nat} {u r : List Char}
    (ht : Shortens term) (hfirst : term t = .ok first u)
    (h : many (do let op ← symbol table; let term ← term.expect; return ⟨op, term⟩) m u = .ok terms r) :
    (∀ a ∈ (BinaryExpression.mk first terms).operands.dropLast, ∃ v w, v <:+ t ∧ term v = .ok a w ∧
      ∃ s ∈ table.map Prod.fst, s.toList <+: skip w) ∧
    ∀ a ∈ (BinaryExpression.mk first terms).operands.getLast?, ∃ v, v <:+ t ∧ term v = .ok a r := by
  induction terms generalizing first t u m with
  | nil =>
    rcases of_many_ok h with ⟨-, rfl⟩ | ⟨_, _, _, _, hnil, -⟩
    · refine ⟨nofun, fun a ha => ?_⟩
      cases ha
      exact ⟨t, List.suffix_refl _, hfirst⟩
    · cases hnil
  | cons o terms ih =>
    rcases of_many_ok h with ⟨hnil, -⟩ | ⟨_, _, v, m, hcons, rfl, hop, hmany⟩
    · cases hnil
    · cases hcons
      obtain ⟨op, w, hsymbol, hterm⟩ := of_bind_ok hop
      obtain ⟨x, _, hterm, hr⟩ := of_bind_ok hterm
      cases hr
      obtain ⟨hmore, hlast⟩ := ih (of_expect_ok hterm) hmany
      have hw : w <:+ t := (shortens_symbol _ hsymbol).trans (ht hfirst)
      obtain ⟨s, hs, hskip⟩ := of_symbols_ok hsymbol
      constructor
      · intro a ha
        rcases List.mem_cons.mp ha with rfl | ha
        · exact ⟨t, u, List.suffix_refl _, hfirst, s, List.mem_map_of_mem (f := Prod.fst) hs, w, hskip.symm⟩
        · obtain ⟨y, z, hy, h⟩ := hmore a ha
          exact ⟨y, z, hy.trans hw, h⟩
      · intro a ha
        obtain ⟨y, hy, h⟩ := hlast a ha
        exact ⟨y, hy.trans hw, h⟩

theorem of_binaryExpr {e : BinaryExpression α Operator} {r : List Char} (hs : ∀ e ∈ table, e.1.toList ≠ [])
    (ht : Shortens term) (hc : Consumes term) (hn : t.length ≤ n + 1)
    (h : binaryExpr n table term t = .ok e r) :
    (∀ s ∈ table.map Prod.fst, ¬ s.toList <+: skip r) ∧
    (∀ a ∈ e.operands.dropLast, ∃ v w, v <:+ t ∧ term v = .ok a w ∧
      ∃ s ∈ table.map Prod.fst, s.toList <+: skip w) ∧
    ∀ a ∈ e.operands.getLast?, ∃ v, v <:+ t ∧ term v = .ok a r := by
  obtain ⟨first, u, hfirst, h⟩ := of_bind_ok h
  obtain ⟨terms, _, hmany, hr⟩ := of_bind_ok h
  cases hr
  refine ⟨?_, of_operations ht hfirst hmany⟩
  have hconsumes : Consumes (do let op ← symbol table; let term ← term.expect; return ⟨op, term⟩ :
      Parser (Operation α Operator)) :=
    (consumes_symbol hs).bind fun _ => ht.expect.bind fun _ => .pure _
  have hnil : symbol table [] = .fail := symbol_fail fun e he h => hs e he (List.prefix_nil.mp h)
  have hfail := many_ends hconsumes (bind_fail hnil) (Nat.le_of_lt_succ ((hc hfirst).trans_le hn)) hmany
  have hsymbol : symbol table r = .fail := of_bind_fail hfail fun op v hv => by
    cases hx : term v with
    | ok a w => rw [bind_ok (expect_ok hx)] at hv; cases hv
    | fail => rw [bind_abort (expect_fail hx)] at hv; cases hv
    | abort => rw [bind_abort (expect_abort hx)] at hv; cases hv
  intro s hmem
  obtain ⟨e, he, rfl⟩ := List.mem_map.mp hmem
  exact of_symbol_fail hsymbol e he

/-- What a rule takes off a text for which there is fuel is made of units: no word of `T` follows the
last one, and one of `S` each other one. -/
structure Parts {γ : Type} (n : Nat) (S T : List String) (unit : Parser γ) (term : Parser α)
    (units : α → List γ) : Prop where
  shortens : Shortens term
  consumes : Consumes term
  ended : ∀ ⦃t a r⦄, t.length ≤ n + 1 → term t = .ok a r → ∀ s ∈ T, ¬ s.toList <+: skip r
  inner : ∀ ⦃t a r⦄, t.length ≤ n + 1 → term t = .ok a r → ∀ u ∈ (units a).dropLast,
    ∃ v w, v <:+ t ∧ unit v = .ok u w ∧ ∃ s ∈ S, s.toList <+: skip w
  last : ∀ ⦃t a r⦄, t.length ≤ n + 1 → term t = .ok a r → ∀ u ∈ (units a).getLast?,
    ∃ v, v <:+ t ∧ unit v = .ok u r

variable {γ : Type} {S T : List String} {unit : Parser γ} {units : α → List γ}

theorem parts_unit (hs : Shortens unit) (hc : Consumes unit) :
    Parts n S [] unit unit fun u => [u] where
  shortens := hs
  consumes := hc
  ended := fun _ _ _ _ _ => nofun
  inner := fun _ _ _ _ _ => nofun
  last := fun t u r _ h v hv => by
    cases hv
    exact ⟨t, List.suffix_refl _, h⟩

theorem Parts.binary (table : List (String × Operator)) (h : Parts n S T unit term units)
    (hs : ∀ e ∈ table, e.1.toList ≠ []) (hS : table.map Prod.fst ⊆ S) (hunits : ∀ a, units a ≠ []) :
    Parts n S (T ++ table.map Prod.fst) unit (binaryExpr n table term)
      fun e => e.operands.flatMap units where
  shortens := shortens_binaryExpr h.shortens
  consumes := consumes_binaryExpr h.shortens h.consumes
  ended := fun t e r hn he => by
    obtain ⟨hended, -, hlast⟩ := of_binaryExpr hs h.shortens h.consumes hn he
    refine List.forall_mem_append.mpr ⟨?_, hended⟩
    obtain ⟨v, hv, ha⟩ := hlast _ (List.getLast?_eq_some_getLast (List.cons_ne_nil _ _))
    exact h.ended (hv.length_le.trans hn) ha
  inner := fun t e r hn he u hu => by
    obtain ⟨-, hinner, hlast⟩ := of_binaryExpr hs h.shortens h.consumes hn he
    rcases (mem_dropLast_flatMap hunits).mp hu with ⟨a, ha, hu⟩ | ⟨a, ha, hu⟩
    · obtain ⟨v, w, hv, hterm, s, hs, hskip⟩ := hinner a ha
      rcases mem_dropLast_or_getLast hu with hu | hu
      · obtain ⟨x, y, hx, h⟩ := h.inner (hv.length_le.trans hn) hterm u hu
        exact ⟨x, y, hx.trans hv, h⟩
      · obtain ⟨x, hx, h⟩ := h.last (hv.length_le.trans hn) hterm u hu
        exact ⟨x, w, hx.trans hv, h, s, hS hs, hskip⟩
    · obtain ⟨v, hv, hterm⟩ := hlast a ha
      obtain ⟨x, y, hx, h⟩ := h.inner (hv.length_le.trans hn) hterm u hu
      exact ⟨x, y, hx.trans hv, h⟩
  last := fun t e r hn he u hu => by
    obtain ⟨-, -, hlast⟩ := of_binaryExpr hs h.shortens h.consumes hn he
    obtain ⟨a, ha, hu⟩ := (mem_getLast_flatMap hunits).mp hu
    obtain ⟨v, hv, hterm⟩ := hlast a ha
    obtain ⟨x, hx, h⟩ := h.last (hv.length_le.trans hn) hterm u hu
    exact ⟨x, hx.trans hv, h⟩

theorem parts_logical : Parts n operators operators (unaryExpr reals n (expression reals n))
    (logicalExpr reals n (expression reals n)) fun e => (Expression.mk e).unaries := by
  have he : Shortens (expression reals n) := shortens_expression n
  have hunary : Shortens (unaryExpr reals n (expression reals n)) :=
    (shortens_symbol _).option.bind fun _ => (shortens_primaryExpr he).bind fun _ => .pure _
  have hunits₁ : ∀ e : MultiplicativeExpression, (e.operands.flatMap fun u => [u]) ≠ [] :=
    operands_ne_nil fun u => List.cons_ne_nil u []
  have hunits₂ : ∀ e : AdditiveExpression,
      (e.operands.flatMap fun e => e.operands.flatMap fun u => [u]) ≠ [] := operands_ne_nil hunits₁
  have hunits₃ : ∀ e : RelationalExpression, (e.operands.flatMap fun e =>
      e.operands.flatMap fun e => e.operands.flatMap fun u => [u]) ≠ [] := operands_ne_nil hunits₂
  have hunits₄ : ∀ e : EqualityExpression, (e.operands.flatMap fun e => e.operands.flatMap fun e =>
      e.operands.flatMap fun e => e.operands.flatMap fun u => [u]) ≠ [] := operands_ne_nil hunits₃
  have hlogical := (((((parts_unit (n := n) (S := operators) hunary (consumes_unaryExpr he)).binary
    multiplicativeOp (by decide) (by decide) fun u => List.cons_ne_nil u []).binary
    additiveOp (by decide) (by decide) hunits₁).binary
    relationalOp (by decide) (by decide) hunits₂).binary
    equalityOp (by decide) (by decide) hunits₃).binary
    logicalOp (by decide) (by decide) hunits₄
  simp only [List.flatMap_singleton', List.nil_append] at hlogical
  exact hlogical

end Layers

/-! ## What the rule for expressions reads -/

/-- **The rule goes on until no operator follows**, with fuel for the text, and what it reads has its
greedy operands at the end. -/
theorem greedy_of_expression {e : Expression} {r : List Char} (hn : t.length ≤ n)
    (h : expression reals n t = .ok e r) : NoOperator r ∧ Greedy e := by
  induction n generalizing t e r with
  | zero => cases h
  | succ n ih =>
    obtain ⟨logical, _, h, hr⟩ := of_bind_ok h
    cases hr
    have he : Shortens (expression reals n) := shortens_expression n
    have hparts : Parts n operators operators (unaryExpr reals n (expression reals n))
        (logicalExpr reals n (expression reals n)) fun e => (Expression.mk e).unaries := parts_logical
    have hunary : ∀ u ∈ (Expression.mk logical).unaries, ∃ v w, v <:+ t ∧
        unaryExpr reals n (expression reals n) v = .ok u w := by
      intro u hu
      rcases mem_dropLast_or_getLast hu with hu | hu
      · obtain ⟨v, w, hv, h, -⟩ := hparts.inner hn h u hu
        exact ⟨v, w, hv, h⟩
      · obtain ⟨v, hv, h⟩ := hparts.last hn h u hu
        exact ⟨v, r, hv, h⟩
    -- What is in a unary expression is taken off a text that is shorter than `t`.
    have hprimary : ∀ {v u w}, v <:+ t → unaryExpr reals n (expression reals n) v = .ok u w →
        (∀ c ∈ u.primary.children, Greedy c) ∧ (u.primary.greedy = true → NoOperator w) := by
      intro v u w hv hu
      obtain ⟨op, x, hop, hu⟩ := of_bind_ok hu
      obtain ⟨p, _, hp, hr⟩ := of_bind_ok hu
      cases hr
      have hx : x.length ≤ n + 1 := (((shortens_symbol _).option hop).trans hv).length_le.trans hn
      obtain ⟨hchildren, hgreedy⟩ := primaryExpr_children he hp
      refine ⟨fun c hc => ?_, fun hg => ?_⟩
      · obtain ⟨y, z, hz, hc⟩ := hchildren c hc
        exact (ih (Nat.le_of_lt_succ (hz.trans_le hx)) hc).2
      · obtain ⟨c, -, z, hz, hc⟩ := hgreedy hg
        exact (ih (Nat.le_of_lt_succ (hz.trans_le hx)) hc).1
    refine ⟨hparts.ended hn h, greedy_iff.mpr ⟨fun u hu => ?_, fun u hu => ?_⟩⟩
    · obtain ⟨v, w, hv, hu, s, hs, hskip⟩ := hparts.inner hn h u hu
      by_contra hgreedy
      exact (hprimary hv hu).2 (by simpa using hgreedy) s hs hskip
    · obtain ⟨v, w, hv, hu⟩ := hunary u hu
      exact (hprimary hv hu).1

/-- What is read is readable, but where a parenthesis is never closed. -/
theorem readable_of_expression {e : Expression} {r : List Char} (hn : t.length ≤ n)
    (h : expression reals n t = .ok e r) : Readable e ∨ Stuck r :=
  (sound_expression n h).imp_left fun hl => ⟨(greedy_of_expression hn h).2, hl⟩

end EzCpp.Flow.Grammar
