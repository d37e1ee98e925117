import EzCpp.Flow.Roundtrip

/-!
# What the expression rule reads is legible

Whatever the expression rule reads from a text is legible, since the rules that read it were tried
after others had failed. There is one exception: `nan` with a parenthesis right after it, which is
never closed. Nothing in the grammar goes on after that (`Stuck`), so it is no whole text.

With `parseUsing_printed`, an expression is read back exactly when it is legible.
-/

namespace EzCpp.Flow.Grammar

open EzCpp.Lib Ast Parser

variable {α : Type} {reals : Reals} {n : Nat}

/-! ## The rules leave an end of a text -/

theorem lineRest_suffix (t : List Char) : lineRest t <:+ t := by
  fun_induction lineRest t with
  | case1 => exact List.suffix_refl _
  | case2 t => exact (List.suffix_cons _ _).trans (List.suffix_cons _ _)
  | case3 t => exact List.suffix_cons _ _
  | case4 t => exact List.suffix_cons _ _
  | case5 c t _ _ _ ih => exact ih.trans (List.suffix_cons _ _)

mutual

theorem blockComment_suffix : ∀ (n : Nat) {t r : List Char}, blockComment n t = some r → r <:+ t
  | 0, t, r, h => by
    unfold blockComment at h
    cases h
  | n + 1, t, r, h => by
    unfold blockComment at h
    split at h
    next m u hm =>
      have hb := blockBody_suffix n u
      cases hm
      split at h
      next rest hbody =>
        cases h
        rw [hbody] at hb
        exact ((List.suffix_cons _ _).trans (List.suffix_cons _ _)).trans
          (hb.trans ((List.suffix_cons _ _).trans (List.suffix_cons _ _)))
      next => cases h
    next => cases h

theorem blockBody_suffix : ∀ (n : Nat) (t : List Char), blockBody n t <:+ t
  | 0, t => by
    unfold blockBody
    exact List.suffix_refl _
  | n + 1, t => by
    unfold blockBody
    split
    next => contradiction
    next => exact List.suffix_refl _
    next => exact List.suffix_refl _
    next m c u _ hm =>
      cases hm
      split
      next r hr => exact (blockBody_suffix n r).trans (blockComment_suffix n hr)
      next => exact (blockBody_suffix n u).trans (List.suffix_cons _ _)

end

theorem comment_suffix {t r : List Char} (h : comment t = some r) : r <:+ t := by
  unfold comment at h
  split at h
  next u =>
    cases h
    exact (lineRest_suffix u).trans ((List.suffix_cons _ _).trans (List.suffix_cons _ _))
  next => exact blockComment_suffix _ h

theorem skipFrom_suffix (n : Nat) (t : List Char) : skipFrom n t <:+ t := by
  induction n generalizing t with
  | zero => exact List.suffix_refl _
  | succ n ih =>
    unfold skipFrom
    split
    next rest h =>
      refine (ih rest).trans ?_
      cases t with
      | nil => cases h
      | cons c t =>
        simp only [skipper] at h
        split at h
        next =>
          cases h
          exact List.suffix_cons _ _
        next => exact comment_suffix h
    next => exact List.suffix_refl _

theorem skip_suffix (t : List Char) : skip t <:+ t := skipFrom_suffix _ t

theorem shortens_lexeme {p : Parser α} (hp : Shortens p) : Shortens (lexeme p) :=
  fun t _ _ h => (hp h).trans (skip_suffix t)

theorem shortens_lit (s : String) : Shortens (lit s) := shortens_lexeme (.text s)

theorem shortens_symbol (table : List (String × α)) : Shortens (symbol table) :=
  shortens_lexeme (.symbols table)

theorem shortens_identifierBase : Shortens identifierBase := fun _ _ _ h => by
  rw [(of_identifierBase_ok h).1]
  exact List.suffix_append _ _

theorem shortens_identifier : Shortens identifier :=
  Shortens.notAhead.bind fun _ => shortens_lexeme shortens_identifierBase

theorem shortens_identifierPath : Shortens (identifierPath n) :=
  shortens_identifier.bind fun _ =>
    ((shortens_lit ".").bind fun _ => shortens_identifier).many.bind fun _ => .pure _

theorem shortens_quoted (quote : Char) : Shortens (quoted quote) := by
  intro t s r h
  cases t with
  | nil => cases h
  | cons c t =>
    simp only [quoted] at h
    split at h
    next =>
      split at h
      next => cases h
      next d rest hd =>
        cases h
        have hs : d :: r <:+ t := hd ▸ List.dropWhile_suffix _
        exact ((List.suffix_cons _ _).trans hs).trans (List.suffix_cons _ _)
    next => cases h

theorem shortens_digits (bound : Nat) : Shortens (digits bound) := by
  intro t i r h
  simp only [digits] at h
  split at h
  next => cases h
  next =>
    cases h
    exact List.dropWhile_suffix _

theorem shortens_integer : Shortens integer := by
  refine shortens_lexeme fun t i r h => ?_
  split at h
  next => exact ((shortens_digits _).bind (fun _ => .pure _) h).trans (List.suffix_cons _ _)
  next => exact ((shortens_digits _).bind (fun _ => .pure _) h).trans (List.suffix_cons _ _)
  next => exact (shortens_digits _).bind (fun _ => .pure _) h

theorem noCase_suffix {ls t r : List Char} (h : noCase ls t = some r) : r <:+ t := by
  induction ls generalizing t with
  | nil =>
    unfold noCase at h
    cases h
    exact List.suffix_refl _
  | cons l ls ih =>
    cases t with
    | nil => cases h
    | cons c t =>
      unfold noCase at h
      split at h
      next => exact (ih h).trans (List.suffix_cons _ _)
      next => cases h

theorem nan_suffix {t r : List Char} (h : nan t = some r) : r <:+ t := by
  unfold nan at h
  obtain ⟨u, hu, h⟩ := Option.bind_eq_some_iff.mp h
  have hs := noCase_suffix hu
  split at h
  next inside =>
    obtain ⟨c, hc⟩ : ∃ c, inside.dropWhile (· ≠ ')') = c :: r := by
      cases hd : inside.dropWhile (· ≠ ')') with
      | nil => rw [hd] at h; cases h
      | cons c v =>
        rw [hd] at h
        cases h
        exact ⟨c, rfl⟩
    have hr : r <:+ inside :=
      (List.suffix_cons c r).trans (hc ▸ List.dropWhile_suffix _)
    exact (hr.trans (List.suffix_cons _ _)).trans hs
  next =>
    cases h
    exact hs

theorem infinity_suffix {t r : List Char} (h : infinity t = some r) : r <:+ t := by
  unfold infinity at h
  obtain ⟨u, hu, rfl⟩ := Option.map_eq_some_iff.mp h
  cases hi : noCase ['i', 'n', 'i', 't', 'y'] u with
  | none => exact noCase_suffix hu
  | some v => exact (noCase_suffix hi).trans (noCase_suffix hu)

theorem exponentLetter_suffix {t r : List Char} (h : exponentLetter t = some r) : r <:+ t := by
  unfold exponentLetter at h
  split at h
  next => cases h; exact List.suffix_cons _ _
  next => cases h; exact List.suffix_cons _ _
  next => cases h

theorem exponent_suffix {t r : List Char} (h : exponent t = some r) : r <:+ t := by
  have hdigits : ∀ u : List Char, (if u.takeWhile Char.isDigit = [] then none
      else some (u.dropWhile Char.isDigit)) = some r → r <:+ u := by
    intro u h
    split at h
    next => cases h
    next =>
      cases h
      exact List.dropWhile_suffix _
  simp only [exponent] at h
  have hr := hdigits _ h
  split at hr
  next => exact hr.trans (List.suffix_cons _ _)
  next => exact hr.trans (List.suffix_cons _ _)
  next => exact hr

theorem numeral_suffix {t r : List Char} (h : numeral t = some r) : r <:+ t := by
  have hdrop : t.dropWhile Char.isDigit <:+ t := List.dropWhile_suffix _
  simp only [numeral] at h
  split at h
  next u hu =>
    rw [hu] at hdrop
    have hrest : u.dropWhile Char.isDigit <:+ t :=
      (List.dropWhile_suffix _).trans ((List.suffix_cons _ _).trans hdrop)
    split at h
    next => cases h
    next =>
      split at h
      next v hv => exact ((exponent_suffix h).trans (exponentLetter_suffix hv)).trans hrest
      next =>
        cases h
        exact hrest
  next =>
    split at h
    next => cases h
    next =>
      obtain ⟨v, hv, h⟩ := Option.bind_eq_some_iff.mp h
      exact ((exponent_suffix h).trans (exponentLetter_suffix hv)).trans hdrop

theorem shortens_unsignedReal : Shortens (unsignedReal reals) := by
  intro t x r h
  unfold unsignedReal at h
  split at h
  next hn =>
    obtain ⟨u, hu⟩ := Option.isSome_iff_exists.mp hn.2
    rw [hu] at h
    cases h
    exact nan_suffix hu
  next =>
    split at h
    next hi =>
      obtain ⟨u, hu⟩ := Option.isSome_iff_exists.mp hi.2
      rw [hu] at h
      cases h
      exact infinity_suffix hu
    next =>
      split at h
      next => cases h
      next rest hrest =>
        split at h
        next => cases h
        next =>
          cases h
          exact numeral_suffix hrest

theorem shortens_real : Shortens (real reals) := by
  refine shortens_lexeme fun t x r h => ?_
  split at h
  next => exact (shortens_unsignedReal.bind (fun _ => .pure _) h).trans (List.suffix_cons _ _)
  next => exact (shortens_unsignedReal h).trans (List.suffix_cons _ _)
  next => exact shortens_unsignedReal h

theorem shortens_literal : Shortens (literal reals) := by
  refine .firstOf fun p hp => ?_
  simp only [List.mem_cons, List.not_mem_nil, or_false] at hp
  rcases hp with rfl | rfl | rfl | rfl | rfl
  · refine Shortens.bind (.firstOf fun p hp => ?_) fun _ => .pure _
    simp only [List.mem_cons, List.not_mem_nil, or_false] at hp
    rcases hp with rfl | rfl
    · exact shortens_lexeme (shortens_quoted _)
    · exact shortens_lexeme (shortens_quoted _)
  · exact (shortens_symbol _).bind fun _ => .pure _
  · exact (shortens_lexeme ((shortens_digits _).bind fun _ =>
      (Shortens.symbols _).bind fun _ => .pure _)).bind fun _ => .pure _
  · exact shortens_real.bind fun _ => .pure _
  · exact shortens_integer.bind fun _ => .pure _

section Rules

variable {expression : Parser Expression} (he : Shortens expression)
include he

theorem shortens_assignment : Shortens (assignment expression) :=
  shortens_identifier.bind fun _ => (shortens_lit _).bind fun _ => he.bind fun _ => .pure _

theorem shortens_functionArgument : Shortens (functionArgument expression) :=
  (shortens_identifier.bind fun _ => (shortens_lit _).bind fun _ => .pure _).option.bind fun _ =>
    he.bind fun _ => .pure _

theorem shortens_functionCall : Shortens (functionCall n expression) :=
  shortens_identifierPath.bind fun _ => (shortens_lit _).bind fun _ =>
    (Shortens.list (shortens_lit _) (shortens_functionArgument he)).option.bind fun _ =>
      (shortens_lit _).bind fun _ => .pure _

theorem shortens_array : Shortens (array n expression) :=
  (shortens_lit _).bind fun _ => (Shortens.list (shortens_lit _) he).option.bind fun _ =>
    (shortens_lit _).bind fun _ => .pure _

theorem shortens_dictionary : Shortens (dictionary n expression) :=
  (shortens_lit _).bind fun _ =>
    (Shortens.list (shortens_lit _) (shortens_assignment he)).option.bind fun _ =>
      (shortens_lit _).bind fun _ => .pure _

theorem shortens_primaryExpr : Shortens (primaryExpr reals n expression) := by
  refine .firstOf fun p hp => ?_
  simp only [List.mem_cons, List.not_mem_nil, or_false] at hp
  rcases hp with rfl | rfl | rfl | rfl | rfl | rfl | rfl | rfl
  · exact ((shortens_lit _).bind fun _ => he.bind fun _ => (shortens_lit _).bind fun _ =>
      he.bind fun _ => .pure _).bind fun _ => .pure _
  · exact ((shortens_lit _).bind fun _ => he).bind fun _ => .pure _
  · exact shortens_literal.bind fun _ => .pure _
  · exact (shortens_functionCall he).bind fun _ => .pure _
  · exact shortens_identifierPath.bind fun _ => .pure _
  · exact (shortens_array he).bind fun _ => .pure _
  · exact (shortens_dictionary he).bind fun _ => .pure _
  · exact ((shortens_lit _).bind fun _ => he.expect.bind fun _ => (shortens_lit _).expect.bind
      fun _ => .pure _).bind fun _ => .pure _

end Rules

theorem shortens_binaryExpr {Term Operator : Type} {table : List (String × Operator)}
    {term : Parser Term} (hterm : Shortens term) : Shortens (binaryExpr n table term) :=
  hterm.bind fun _ => ((shortens_symbol _).bind fun _ => hterm.expect.bind fun _ => .pure _).many.bind
    fun _ => .pure _

theorem shortens_expression (n : Nat) : Shortens (expression reals n) := by
  induction n with
  | zero => exact nofun
  | succ n ih =>
    have hunary : Shortens (unaryExpr reals n (expression reals n)) :=
      (shortens_symbol _).option.bind fun _ => (shortens_primaryExpr ih).bind fun _ => .pure _
    exact (shortens_binaryExpr (shortens_binaryExpr (shortens_binaryExpr (shortens_binaryExpr
      (shortens_binaryExpr hunary))))).bind fun _ => .pure _

/-! ## What stops the grammar -/

/-- A parenthesis that is never closed. -/
def Stuck (t : List Char) : Prop := ∃ r, skip t = '(' :: r ∧ ')' ∉ r

/-- What `p` reads has `P`, but where nothing goes on. -/
def Sound (p : Parser α) (P : α → Prop) : Prop := ∀ ⦃t a r⦄, p t = .ok a r → P a ∨ Stuck r

theorem Stuck.lit_fail {t : List Char} (h : Stuck t) {w : String}
    (hw : w.toList.head?.any (fun c => decide (c ≠ '(')) = true) : lit w t = .fail := by
  obtain ⟨r, hr, -⟩ := h
  refine Grammar.lit_fail (not_prefix_of_head hw fun c hc => ?_)
  rw [hr] at hc
  cases hc
  rfl

theorem Stuck.symbol_fail {t : List Char} (h : Stuck t) {table : List (String × α)}
    (hw : ∀ e ∈ table, e.1.toList.head?.any (fun c => decide (c ≠ '(')) = true) :
    symbol table t = .fail := by
  obtain ⟨r, hr, -⟩ := h
  refine Grammar.symbol_fail fun e he => not_prefix_of_head (hw e he) fun c hc => ?_
  rw [hr] at hc
  cases hc
  rfl

theorem Sound.many {p : Parser α} {P : α → Prop} (hp : Sound p P)
    (hstuck : ∀ t, Stuck t → p t = .fail) : Sound (many p n) fun as => ∀ a ∈ as, P a := by
  induction n with
  | zero =>
    intro t as r h
    cases h
    exact .inl nofun
  | succ n ih =>
    intro t as r h
    rcases of_many_ok h with ⟨rfl, -⟩ | ⟨a, bs, u, m, rfl, hm, hu, hr⟩
    · exact .inl nofun
    · cases hm
      rcases hp hu with ha | hs
      · exact (ih hr).imp_left fun hbs => List.forall_mem_cons.mpr ⟨ha, hbs⟩
      · rw [many_fail (hstuck u hs)] at hr
        cases hr
        exact .inr hs

theorem Sound.list {p : Parser α} {P : α → Prop} (hp : Sound p P) :
    Sound (list n (lit ",") p) fun as => ∀ a ∈ as, P a := by
  intro t as r h
  obtain ⟨a, u, hu, h⟩ := of_bind_ok h
  obtain ⟨bs, v, hv, h⟩ := of_bind_ok h
  cases h
  have hmore : Sound (do lit ","; p) P := fun t b r h => by
    obtain ⟨_, u, -, hb⟩ := of_bind_ok h
    exact hp hb
  rcases hp hu with ha | hs
  · exact (hmore.many (fun t hs => bind_fail (hs.lit_fail (by decide))) hv).imp_left
      fun hbs => List.forall_mem_cons.mpr ⟨ha, hbs⟩
  · rw [many_fail (bind_fail (hs.lit_fail (by decide)))] at hv
    cases hv
    exact .inr hs

/-- A list that is closed is read as it should be. -/
theorem Sound.enclosed {p : Parser α} {P : α → Prop} (hp : Sound p P) {w : String}
    {t u v : List Char} {es : Option (List α)} {x : Unit}
    (hw : w.toList.head?.any (fun c => decide (c ≠ '(')) = true)
    (h : option (Parser.list n (lit ",") p) t = .ok es u) (hv : lit w u = .ok x v) :
    ∀ a ∈ es.getD [], P a := by
  rcases of_option_ok h with ⟨as, rfl, has⟩ | ⟨rfl, -, -⟩
  · rcases hp.list has with h | hs
    · exact h
    · rw [hs.lit_fail hw] at hv
      cases hv
  · exact nofun

/-! ## Numbers that are spelled with letters -/

theorem noCase_isSome_append {ls l r : List Char} (h : (noCase ls l).isSome) :
    noCase ls (l ++ r) = (noCase ls l).map (· ++ r) := by
  induction ls generalizing l with
  | nil => cases l <;> rfl
  | cons d ls ih =>
    cases l with
    | nil => cases h
    | cons c l =>
      rw [noCase] at h
      rw [List.cons_append, noCase, noCase]
      split at h
      next hc => rw [if_pos hc, if_pos hc, ih h]
      next => cases h

theorem real_fail_of_literal_fail {t : List Char} (h : literal reals t = .fail) :
    real reals t = .fail :=
  of_bind_fail (of_firstOf_fail h (do let r ← real reals; return .real r) (by simp)) nofun

theorem nan_infinity_eq_none {t : List Char} {w : Identifier} {r : List Char}
    (h : literal reals t = .fail) (ht : skip t = w.toList ++ r) (hw : Spelled w) :
    nan (skip t) = none ∧ infinity (skip t) = none := by
  have hs : ∀ c ∈ (skip t).head?, startsIdentifier c = true := ht ▸ head_of_spelled hw
  have hu : Unsigned (skip t) := fun c hc =>
    ⟨ne_of_starts (hs c hc) (by decide), ne_of_starts (hs c hc) (by decide)⟩
  have hd : (skip t).takeWhile Char.isDigit = [] :=
    takeWhile_digits_nil fun c hc => isDigit_of_starts (hs c hc)
  have hreal := real_fail_of_literal_fail h
  rw [real_eq hu] at hreal
  unfold unsignedReal at hreal
  split at hreal
  next => cases hreal
  next hnan =>
    split at hreal
    next => cases hreal
    next hinf =>
      simp only [hd, true_and, Bool.not_eq_true, Option.isSome_eq_false_iff,
        Option.isNone_iff_eq_none] at hnan hinf
      exact ⟨hnan, hinf⟩

/-- Such a word is left to the other rules only with an open parenthesis right after it. -/
theorem stuck_of_beginsReal {t : List Char} {w : Identifier} {r : List Char}
    (h : literal reals t = .fail) (ht : skip t = w.toList ++ r) (hw : Spelled w)
    (hreal : BeginsReal w) : Stuck r := by
  obtain ⟨hnan, hinf⟩ := nan_infinity_eq_none h ht hw
  rw [ht] at hnan hinf
  rcases hreal with hn | hi
  · obtain ⟨w', hw'⟩ := Option.isSome_iff_exists.mp hn
    rw [nan, noCase_isSome_append hn, hw', Option.map_some, Option.bind_some] at hnan
    split at hnan
    next inside heq =>
      have hnil : w' = [] := by
        cases w' with
        | nil => rfl
        | cons c cs =>
          cases heq
          obtain ⟨d, ds, hd, hs, hds⟩ := hw
          have hm : '(' ∈ w.toList := (noCase_suffix hw').subset List.mem_cons_self
          rw [hd] at hm
          have hopen : ∀ c ∈ d :: ds, continuesIdentifier c = true :=
            List.forall_mem_cons.mpr ⟨continues_of_starts hs, hds⟩
          exact absurd (hopen _ hm) (by decide)
      subst hnil
      refine ⟨inside, ?_, fun hm => ?_⟩
      · rw [← heq, List.nil_append, skip_of_solid]
        rw [List.nil_append] at heq
        rw [heq]
        exact solid_of_ne (by decide) (by decide)
      · cases hd : inside.dropWhile (· ≠ ')') with
        | nil => exact absurd (List.dropWhile_eq_nil_iff.mp hd _ hm) (by simp)
        | cons c cs =>
          rw [hd] at hnan
          cases hnan
    next => cases hnan
  · rw [infinity, noCase_isSome_append hi] at hinf
    obtain ⟨w', hw'⟩ := Option.isSome_iff_exists.mp hi
    rw [hw'] at hinf
    cases hinf

/-! ## Names of arguments -/

/-- A layer without operators is its operand. -/
theorem of_binaryExpr_nil {Term Operator : Type} {table : List (String × Operator)}
    {term : Parser Term} {first : Term} {t u : List Char}
    (h : binaryExpr n table term t = .ok ⟨first, []⟩ u) : term t = .ok first u := by
  obtain ⟨_, v, h, hr⟩ := of_bind_ok h
  obtain ⟨_, _, hm, hr⟩ := of_bind_ok hr
  cases hr
  rcases of_many_ok hm with ⟨-, rfl⟩ | ⟨_, _, _, _, hnil, -⟩
  · exact h
  · cases hnil

/-- A word ends where an operator begins. -/
theorem ends_of_skip {c : Char} {u v : List Char} (h : skip u = c :: v)
    (hc : continuesIdentifier c = false) : Ends u := by
  intro d hd
  by_contra hcontinues
  have hcontinues : continuesIdentifier d = true := by simpa using hcontinues
  cases u with
  | nil => cases hd
  | cons e u =>
    cases hd
    have hne : d ≠ '/' := by
      rintro rfl
      exact absurd hcontinues (by decide)
    rw [skip_of_solid (solid_of_ne (isSpace_of_continues hcontinues) hne)] at h
    cases h
    rw [hc] at hcontinues
    cases hcontinues

/-- A path of one identifier, and a boolean, are what the identifier rule takes. -/
theorem identifier_of_isWord {expression : Parser Expression} {t u : List Char}
    {p : PrimaryExpression} (h : primaryExpr reals n expression t = .ok p u) (hp : isWord p = true)
    (hu : Ends u) : ∃ w, identifier t = .ok w u := by
  obtain ⟨q, hq, h⟩ := of_firstOf_ok h
  simp only [List.mem_cons, List.not_mem_nil, or_false] at hq
  unfold isWord at hp
  split at hp
  next front properties h =>
    obtain rfl : properties = [] := List.isEmpty_iff.mp hp
    have hpath : identifierPath n t = .ok ⟨front, []⟩ u := by
      rcases hq with rfl | rfl | rfl | rfl | rfl | rfl | rfl | rfl
      all_goals
        obtain ⟨_, _, h, hr⟩ := of_bind_ok h
        cases hr
      exact h
    obtain ⟨_, u', hid, h⟩ := of_bind_ok hpath
    obtain ⟨_, _, hm, hr⟩ := of_bind_ok h
    cases hr
    rcases of_many_ok hm with ⟨-, rfl⟩ | ⟨_, _, _, _, hnil, -⟩
    · exact ⟨_, hid⟩
    · cases hnil
  next b h =>
    have hliteral : literal reals t = .ok (.boolean b) u := by
      rcases hq with rfl | rfl | rfl | rfl | rfl | rfl | rfl | rfl
      all_goals
        obtain ⟨_, _, h, hr⟩ := of_bind_ok h
        cases hr
      exact h
    obtain ⟨q, hq, h⟩ := of_firstOf_ok hliteral
    simp only [List.mem_cons, List.not_mem_nil, or_false] at hq
    have hboolean : symbol boolean t = .ok b u := by
      rcases hq with rfl | rfl | rfl | rfl | rfl
      all_goals
        obtain ⟨_, _, h, hr⟩ := of_bind_ok h
        cases hr
      exact h
    obtain ⟨s, hs, hskip⟩ := of_symbols_ok hboolean
    have hall : ∀ e ∈ boolean, e.1 = spelling boolean e.2 := by decide
    obtain rfl : s = spelling boolean b := hall _ hs
    exact ⟨_, identifier_ok hskip (spelled_boolean b) (unreserved_boolean b) hu⟩
  next => cases hp

/-- The word that an expression compares, and the `=` after it. -/
theorem word_of_comparesWord {t r : List Char} {e : Expression}
    (h : expression reals n t = .ok e r) (he : comparesWord e = true) :
    ∃ w u v, identifier t = .ok w u ∧ lit "=" u = .ok () v := by
  cases n with
  | zero => cases h
  | succ n =>
  unfold comparesWord at he
  split at he
  next p e₁ e₂ e₃ =>
    obtain ⟨_, _, h, hr⟩ := of_bind_ok h
    cases hr
    obtain ⟨_, _, h, hr⟩ := of_bind_ok h
    obtain ⟨_, _, -, hr⟩ := of_bind_ok hr
    cases hr
    obtain ⟨_, u, h, hr⟩ := of_bind_ok h
    obtain ⟨_, _, hops, hr⟩ := of_bind_ok hr
    cases hr
    have hunary : unaryExpr reals n (expression reals n) t = .ok (.mk none p) u :=
      of_binaryExpr_nil (of_binaryExpr_nil (of_binaryExpr_nil h))
    obtain ⟨_, _, hop, h⟩ := of_bind_ok hunary
    obtain ⟨_, _, hprimary, hr⟩ := of_bind_ok h
    cases hr
    -- The `==` after the word begins with the `=` of a name.
    obtain ⟨v, hv⟩ : ∃ v, skip u = '=' :: '=' :: v := by
      rcases of_many_ok hops with ⟨hnil, -⟩ | ⟨_, _, v, _, hcons, -, hop, -⟩
      · cases hnil
      · cases hcons
        obtain ⟨_, v, hop, h⟩ := of_bind_ok hop
        obtain ⟨_, _, -, hr⟩ := of_bind_ok h
        cases hr
        obtain ⟨s, hs, hv⟩ := of_symbols_ok hop
        have hall : ∀ e ∈ equalityOp, e.2 = .eq → e.1 = "==" := by decide
        obtain rfl : s = "==" := hall _ hs rfl
        exact ⟨v, hv⟩
    have hlit : lit "=" u = .ok () ('=' :: v) := Grammar.lit_ok hv
    obtain ⟨w, hw⟩ := identifier_of_isWord hprimary he (ends_of_skip hv (by decide))
    rcases of_option_ok hop with ⟨_, hnone, -⟩ | ⟨-, -, rfl⟩
    · cases hnone
    · exact ⟨w, u, _, hw, hlit⟩
  next => cases he

theorem sound_assignment {P : Expression → Prop} (hP : Sound (expression reals n) P) :
    Sound (assignment (expression reals n)) fun a => P a.value := by
  intro t a r h
  obtain ⟨_, _, -, h⟩ := of_bind_ok h
  obtain ⟨_, _, -, h⟩ := of_bind_ok h
  obtain ⟨_, _, hv, hr⟩ := of_bind_ok h
  cases hr
  exact hP hv

theorem sound_functionArgument {P : Expression → Prop} (hP : Sound (expression reals n) P) :
    Sound (functionArgument (expression reals n)) fun a =>
      P a.value ∧ (a.name = none → comparesWord a.value = false) := by
  intro t a r h
  obtain ⟨name, u, hname, h⟩ := of_bind_ok h
  obtain ⟨value, v, hvalue, hr⟩ := of_bind_ok h
  cases hr
  refine (hP hvalue).imp_left fun hP => ⟨hP, fun hnone => ?_⟩
  cases hnone
  rcases of_option_ok hname with ⟨_, hsome, -⟩ | ⟨-, hfail, rfl⟩
  · cases hsome
  · by_contra hcompares
    obtain ⟨w, u', v', hid, hlit⟩ := word_of_comparesWord hvalue (by simpa using hcompares)
    have hok := (bind_ok (f := fun name => do lit "="; return name) hid).trans (bind_ok hlit)
    rw [hfail] at hok
    cases hok

/-! ## Legible expressions -/

def LegibleExpression (e : Expression) : Prop := ∀ p, Occurs p e → Legible p

/-- What holds of a primary expression when it and the expressions in it are legible. -/
def LegiblePrimary (p : PrimaryExpression) : Prop := Legible p ∧ ∀ c ∈ p.children, LegibleExpression c

theorem forall_occurs_iff {P : PrimaryExpression → Prop} {e : Expression} :
    (∀ p, Occurs p e → P p) ↔
      ∀ u ∈ e.unaries, P u.primary ∧ ∀ c ∈ u.primary.children, ∀ p, Occurs p c → P p := by
  constructor
  · exact fun h u hu => ⟨h _ (.here hu rfl), fun c hc p hp => h p (.within hu hc hp)⟩
  · intro h p hp
    cases hp with
    | here hu hp => exact hp ▸ (h _ hu).1
    | within hu hc hp => exact (h _ hu).2 _ hc _ hp

section Rules

variable (he : Sound (expression reals n) LegibleExpression)
include he

theorem sound_awaitExpression : Sound (awaitExpression (expression reals n)) fun e =>
    LegiblePrimary (.awaitExpression e) := by
  intro t e r h
  obtain ⟨_, _, -, h⟩ := of_bind_ok h
  obtain ⟨_, u, hx, h⟩ := of_bind_ok h
  obtain ⟨_, _, hfor, h⟩ := of_bind_ok h
  obtain ⟨_, _, hd, hr⟩ := of_bind_ok h
  cases hr
  rcases he hx with hx | hs
  · refine (he hd).imp_left fun hd => ⟨trivial, fun c hc => ?_⟩
    simp only [PrimaryExpression.children, List.mem_cons, List.not_mem_nil, or_false] at hc
    rcases hc with rfl | rfl
    · exact hx
    · exact hd
  · rw [hs.lit_fail (by decide)] at hfor
    cases hfor

theorem sound_tryExpression : Sound (tryExpression (expression reals n)) fun e =>
    LegiblePrimary (.tryExpression e) := by
  intro t e r h
  obtain ⟨_, _, -, hx⟩ := of_bind_ok h
  exact (he hx).imp_left fun hx => ⟨trivial, List.forall_mem_singleton.mpr hx⟩

omit he in
/-- A path that begins like a number leaves an open parenthesis, and has no properties. -/
theorem path_legible_or_stuck {t u : List Char} {path : IdentifierPath}
    (hliteral : literal reals t = .fail) (h : identifierPath n t = .ok path u) :
    ¬ BeginsReal path.front ∨ Stuck u := by
  obtain ⟨front, v, hid, h⟩ := of_bind_ok h
  obtain ⟨properties, _, hm, hr⟩ := of_bind_ok h
  cases hr
  by_cases hreal : BeginsReal front
  · obtain ⟨hskip, hw, -, -⟩ := of_identifier_ok hid
    have hs : Stuck v := stuck_of_beginsReal hliteral hskip hw hreal
    rw [many_fail (bind_fail (hs.lit_fail (by decide)))] at hm
    cases hm
    exact .inr hs
  · exact .inl hreal

theorem functionCall_legible {t r : List Char} {call : FunctionCall}
    (hliteral : literal reals t = .fail)
    (h : functionCall n (expression reals n) t = .ok call r) :
    LegiblePrimary (.functionCall call) := by
  obtain ⟨path, u, hp, h⟩ := of_bind_ok h
  obtain ⟨_, v, hopen, h⟩ := of_bind_ok h
  obtain ⟨arguments, v', hargs, h⟩ := of_bind_ok h
  obtain ⟨_, _, hclose, hr⟩ := of_bind_ok h
  cases hr
  have hgood := (sound_functionArgument he).enclosed (by decide) hargs hclose
  rcases path_legible_or_stuck hliteral hp with hreal | ⟨v₀, hskip, hnot⟩
  · refine ⟨⟨hreal, fun a ha => (hgood a ha).2⟩, fun c hc => ?_⟩
    obtain ⟨a, ha, rfl⟩ := List.mem_map.mp hc
    exact (hgood a ha).1
  · -- The call is closed, which the parenthesis was not to be.
    have hv : v = v₀ := by
      have := of_text_ok hopen
      rw [hskip] at this
      exact (List.cons.inj this).2.symm
    have hmem : ')' ∈ skip v' := by
      rw [of_text_ok hclose]
      exact List.mem_cons_self
    have hsuffix : v' <:+ v :=
      (Shortens.list (shortens_lit ",") (shortens_functionArgument (shortens_expression n))).option
        hargs
    exact absurd (hsuffix.subset ((skip_suffix v').subset hmem)) (hv ▸ hnot)

theorem array_legible {t r : List Char} {elements : List Expression}
    (h : array n (expression reals n) t = .ok elements r) : LegiblePrimary (.array elements) := by
  obtain ⟨_, _, -, h⟩ := of_bind_ok h
  obtain ⟨_, _, hes, h⟩ := of_bind_ok h
  obtain ⟨_, _, hclose, hr⟩ := of_bind_ok h
  cases hr
  exact ⟨trivial, he.enclosed (by decide) hes hclose⟩

theorem dictionary_legible {t r : List Char} {elements : List (Assignment Expression)}
    (h : dictionary n (expression reals n) t = .ok elements r) :
    LegiblePrimary (.dictionary elements) := by
  obtain ⟨_, _, -, h⟩ := of_bind_ok h
  obtain ⟨_, _, hes, h⟩ := of_bind_ok h
  obtain ⟨_, _, hclose, hr⟩ := of_bind_ok h
  cases hr
  refine ⟨trivial, fun c hc => ?_⟩
  obtain ⟨a, ha, rfl⟩ := List.mem_map.mp hc
  exact (sound_assignment he).enclosed (by decide) hes hclose a ha

theorem parenthesised_legible {t r : List Char} {e : Expression}
    (h : parenthesised (expression reals n) t = .ok e r) : LegiblePrimary (.expression e) := by
  obtain ⟨_, _, -, h⟩ := of_bind_ok h
  obtain ⟨_, _, hx, h⟩ := of_bind_ok h
  obtain ⟨_, _, hclose, hr⟩ := of_bind_ok h
  cases hr
  rcases he (of_expect_ok hx) with hx | hs
  · exact ⟨trivial, List.forall_mem_singleton.mpr hx⟩
  · have := of_expect_ok hclose
    rw [hs.lit_fail (by decide)] at this
    cases this

/-- The alternatives are sound where those before them have failed. -/
theorem sound_primaryExpr : Sound (primaryExpr reals n (expression reals n)) LegiblePrimary := by
  intro t p r h
  rcases of_firstOf_cons h with h | ⟨-, h⟩
  · obtain ⟨_, _, h, hr⟩ := of_bind_ok h
    cases hr
    exact sound_awaitExpression he h
  rcases of_firstOf_cons h with h | ⟨-, h⟩
  · obtain ⟨_, _, h, hr⟩ := of_bind_ok h
    cases hr
    exact sound_tryExpression he h
  rcases of_firstOf_cons h with h | ⟨hliteral, h⟩
  · obtain ⟨_, _, -, hr⟩ := of_bind_ok h
    cases hr
    exact .inl ⟨trivial, nofun⟩
  have hliteral : literal reals t = .fail := of_bind_fail hliteral nofun
  rcases of_firstOf_cons h with h | ⟨-, h⟩
  · obtain ⟨_, _, h, hr⟩ := of_bind_ok h
    cases hr
    exact .inl (functionCall_legible he hliteral h)
  rcases of_firstOf_cons h with h | ⟨-, h⟩
  · obtain ⟨_, _, h, hr⟩ := of_bind_ok h
    cases hr
    exact (path_legible_or_stuck hliteral h).imp_left fun hreal => ⟨hreal, nofun⟩
  rcases of_firstOf_cons h with h | ⟨-, h⟩
  · obtain ⟨_, _, h, hr⟩ := of_bind_ok h
    cases hr
    exact .inl (array_legible he h)
  rcases of_firstOf_cons h with h | ⟨-, h⟩
  · obtain ⟨_, _, h, hr⟩ := of_bind_ok h
    cases hr
    exact .inl (dictionary_legible he h)
  rcases of_firstOf_cons h with h | ⟨-, h⟩
  · obtain ⟨_, _, h, hr⟩ := of_bind_ok h
    cases hr
    exact .inl (parenthesised_legible he h)
  · cases h

end Rules

theorem sound_binaryExpr {Term Operator : Type} {table : List (String × Operator)}
    {term : Parser Term} {P : Term → Prop}
    (htable : ∀ e ∈ table, e.1.toList.head?.any (fun c => decide (c ≠ '(')) = true)
    (hterm : Sound term P) :
    Sound (binaryExpr n table term) fun e => ∀ a ∈ e.operands, P a := by
  intro t e r h
  obtain ⟨first, u, hfirst, h⟩ := of_bind_ok h
  obtain ⟨terms, _, hm, hr⟩ := of_bind_ok h
  cases hr
  have hmore : Sound (do let op ← symbol table; let term ← term.expect; return ⟨op, term⟩)
      fun o : Operation Term Operator => P o.term := fun t o r h => by
    obtain ⟨_, _, -, h⟩ := of_bind_ok h
    obtain ⟨_, _, hx, hr⟩ := of_bind_ok h
    cases hr
    exact hterm (of_expect_ok hx)
  rcases hterm hfirst with hfirst | hs
  · refine (hmore.many (fun t hs => bind_fail (hs.symbol_fail htable)) hm).imp_left fun hterms =>
      List.forall_mem_cons.mpr ⟨hfirst, fun a ha => ?_⟩
    obtain ⟨o, ho, rfl⟩ := List.mem_map.mp ha
    exact hterms o ho
  · rw [many_fail (bind_fail (hs.symbol_fail htable))] at hm
    cases hm
    exact .inr hs

theorem sound_expression (n : Nat) : Sound (expression reals n) LegibleExpression := by
  induction n with
  | zero => exact nofun
  | succ n ih =>
    have hunary : Sound (unaryExpr reals n (expression reals n)) fun u =>
        LegiblePrimary u.primary := fun t u r h => by
      obtain ⟨_, _, -, h⟩ := of_bind_ok h
      obtain ⟨_, _, hp, hr⟩ := of_bind_ok h
      cases hr
      exact sound_primaryExpr ih hp
    intro t e r h
    obtain ⟨logical, _, h, hr⟩ := of_bind_ok h
    cases hr
    have hlayers := sound_binaryExpr (by decide) (sound_binaryExpr (by decide)
      (sound_binaryExpr (by decide) (sound_binaryExpr (by decide)
      (sound_binaryExpr (by decide) hunary)))) h
    refine hlayers.imp_left fun hall => forall_occurs_iff.mpr fun u hu => ?_
    simp only [Expression.unaries, List.mem_flatMap] at hu
    obtain ⟨e₁, h₁, e₂, h₂, e₃, h₃, e₄, h₄, hu⟩ := hu
    exact hall e₁ h₁ e₂ h₂ e₃ h₃ e₄ h₄ u hu

/-- A whole text is legible. -/
theorem legible_of_parseUsing {code : String} {e : Expression}
    (h : parseUsing (expression reals) code = some e) : LegibleExpression e := by
  unfold parseUsing at h
  split at h
  next a rest ha =>
    split at h
    next hrest =>
      cases h
      rcases sound_expression _ ha with he | ⟨r, hr, -⟩
      · exact he
      · rw [hrest] at hr
        cases hr
    next => cases h
  next => cases h

/-! ## The round trip -/

/-- A printed expression is read back if and only if none of its paths begins like a number and
no unnamed argument compares a word. -/
theorem printed_read_iff (reals : Reals) (e : Expression) (hw : ∀ p, Occurs p e → Writable p) :
    parseUsing (expression reals) (printed e) = some e ↔ ∀ p, Occurs p e → Legible p :=
  ⟨legible_of_parseUsing, parseUsing_printed hw⟩

section Examples

theorem forall_occurs_toExpression {P : PrimaryExpression → Prop} {e : PrimaryExpression}
    (he : P e) (hc : ∀ c ∈ e.children, ∀ p, Occurs p c → P p) :
    ∀ p, Occurs p e.toExpression → P p := by
  have hunaries : e.toExpression.unaries = [.mk none e] := rfl
  rw [forall_occurs_iff, hunaries]
  exact List.forall_mem_singleton.mpr ⟨he, hc⟩

theorem plain_letter : ∀ w ∈ ["f", "n", "x"], Plain w := by
  have hreserved : ∀ w ∈ ["f", "n", "x"], (∀ kw ∈ keywords, ¬ kw.toList <+: w.toList) ∧
      (∀ e ∈ boolean, ¬ e.1.toList <+: w.toList) := by decide
  have hspelled : ∀ w ∈ ["f", "n", "x"], Spelled w := by
    simp only [List.forall_mem_cons]
    exact ⟨⟨'f', [], rfl, by decide, nofun⟩, ⟨'n', [], rfl, by decide, nofun⟩,
      ⟨'x', [], rfl, by decide, nofun⟩, nofun⟩
  exact fun w hw => ⟨hspelled w hw, (hreserved w hw).1, (hreserved w hw).2⟩

/-- `[ f ( n = 1 ) ]` -/
def arrayOfCall : Expression :=
  (PrimaryExpression.array [(PrimaryExpression.functionCall
    ⟨⟨"f", []⟩, [⟨some "n", (Literal.integer 1).toExpression⟩]⟩).toExpression]).toExpression

def noReals : Reals := ⟨fun _ => none, 0, 0⟩

theorem arrayOfCall_read : (∀ p, Occurs p arrayOfCall → Writable p) ∧
    printed arrayOfCall = "[ f ( n = 1 ) ]" ∧
    parseUsing (expression noReals) (printed arrayOfCall) = some arrayOfCall := by
  have hw : ∀ p, Occurs p arrayOfCall → Writable p := by
    refine forall_occurs_toExpression trivial (List.forall_mem_singleton.mpr
      (forall_occurs_toExpression ⟨?_, ?_⟩ (List.forall_mem_singleton.mpr
        (forall_occurs_toExpression ⟨by decide, by decide⟩ nofun))))
    · exact List.forall_mem_singleton.mpr (plain_letter "f" (by decide))
    · refine List.forall_mem_singleton.mpr fun name hname => ?_
      cases hname
      exact plain_letter "n" (by decide)
  have hl : ∀ p, Occurs p arrayOfCall → Legible p :=
    forall_occurs_toExpression trivial (List.forall_mem_singleton.mpr
      (forall_occurs_toExpression ⟨by decide, List.forall_mem_singleton.mpr nofun⟩
        (List.forall_mem_singleton.mpr (forall_occurs_toExpression trivial nofun))))
  exact ⟨hw, by decide +kernel, (printed_read_iff noReals arrayOfCall hw).mpr hl⟩

/-- `x == 1` -/
def comparison : Expression :=
  .mk ⟨⟨⟨⟨⟨.mk none (.identifierPath ⟨"x", []⟩), []⟩, []⟩, []⟩,
    [⟨.eq, ⟨⟨⟨.mk none (.literal (.integer 1)), []⟩, []⟩, []⟩⟩]⟩, []⟩

/-- `f ( x == 1 )` -/
def callWithComparison : Expression :=
  (PrimaryExpression.functionCall ⟨⟨"f", []⟩, [⟨none, comparison⟩]⟩).toExpression

/-- The call is taken for one with an argument `x`, and is not read. -/
theorem callWithComparison_unread : (∀ p, Occurs p callWithComparison → Writable p) ∧
    printed callWithComparison = "f ( x == 1 )" ∧
    parseUsing (expression noReals) "f ( x == 1 )" ≠ some callWithComparison := by
  refine ⟨forall_occurs_toExpression ⟨?_, ?_⟩ (List.forall_mem_singleton.mpr ?_), by decide +kernel,
    fun h => ?_⟩
  · exact List.forall_mem_singleton.mpr (plain_letter "f" (by decide))
  · exact List.forall_mem_singleton.mpr nofun
  · have hunaries : comparison.unaries = [.mk none (.identifierPath ⟨"x", []⟩),
      .mk none (.literal (.integer 1))] := rfl
    rw [forall_occurs_iff, hunaries]
    refine List.forall_mem_cons.mpr ⟨⟨?_, nofun⟩, List.forall_mem_singleton.mpr ⟨?_, nofun⟩⟩
    · exact List.forall_mem_singleton.mpr (plain_letter "x" (by decide))
    · exact ⟨by decide, by decide⟩
  · have hl := (legible_of_parseUsing h _ (.here List.mem_cons_self rfl)).2 _ List.mem_cons_self rfl
    exact absurd hl (by decide)

end Examples

end EzCpp.Flow.Grammar
