import EzCpp.Flow.Value
import EzCpp.Flow.Words

/-!
# The texts of values

A value that there is a syntax for, the text it is represented by (`Value.chars`), and the
expression that the text is meant for (`Value.written`). The printers and the rules of the literals
agree but for integers beyond 32 bits, durations with a count beyond 32 bits, and the unit of
minutes: a value without these is read as it is written (`reads_chars`), and of any other value
something is left (`strays_chars`).
-/

namespace EzCpp.Flow

open EzCpp.Lib Ast

/-! ## Values with a syntax -/

/-- What the literals can say of the numbers in a label. -/
def Label.InRange : Label → Prop
  | .integer i => i.toInt.natAbs < 2 ^ 31
  | .duration d => d.unit ≠ .min ∧ d.count.toNat < 2 ^ 32
  | _ => True

namespace Value

/-- Booleans, integers, durations, strings without the quote they are printed in, and arrays and
dictionaries of such values, the keys being identifiers. -/
inductive HasSyntax : Value → Prop
  | boolean (b : Bool) : HasSyntax (.node (.boolean b) [])
  | integer (i : Int64) : HasSyntax (.node (.integer i) [])
  | duration (d : Duration) : HasSyntax (.node (.duration d) [])
  | string (s : String) (hs : '\'' ∉ s.toList) : HasSyntax (.node (.string s) [])
  | array {ts : List Value} (h : ∀ t ∈ ts, HasSyntax t) : HasSyntax (.node .array ts)
  | dictionary {keys : List String} {ts : List Value} (hlen : keys.length = ts.length)
      (hk : ∀ key ∈ keys, Grammar.identifier key.toList = .ok key []) (h : ∀ t ∈ ts, HasSyntax t) :
      HasSyntax (.node (.dictionary .dictionary keys) ts)

/-- Every integer and every duration in the value is one that the literals can say. -/
def InRange (x : Value) : Prop := ∀ l, x.Occurs l → l.InRange

/-- The texts with a comma between. -/
def separated : List (List Char) → List Char
  | [] => []
  | l :: ls => l ++ ls.flatMap fun m => ',' :: ' ' :: m

def entryChars (key : String) (chars : List Char) : List Char := key.toList ++ '=' :: chars

mutual

/-- The characters of the representation. -/
def chars : Value → List Char
  | .node label ts =>
    match label with
    | .boolean b => (if b then "true" else "false").toList
    | .integer i => (toString i).toList
    | .duration d => (toString d.count).toList ++ d.unit.suffix.toList
    | .string s => '\'' :: (s.toList ++ ['\''])
    | .array => '[' :: (separated (charsAll ts) ++ [']'])
    | .dictionary _ keys => '(' :: (separated (List.zipWith entryChars keys (charsAll ts)) ++ [')'])
    | _ => []

def charsAll : List Value → List (List Char)
  | [] => []
  | t :: ts => chars t :: charsAll ts

end

mutual

/-- The expression of a value. A sign is an operator. -/
def written : Value → UnaryExpression
  | .node label ts =>
    match label with
    | .boolean b => .mk none (.literal (.boolean b))
    | .integer i =>
      .mk (if i.toInt < 0 then some .minus else none) (.literal (.integer (.ofInt i.toInt.natAbs)))
    | .duration d => .mk none (.literal (.duration d))
    | .string s => .mk none (.literal (.string s))
    | .dictionary _ keys =>
      .mk none (.dictionary (List.zipWith Assignment.mk keys (writtenAll ts)))
    | _ => .mk none (.array (writtenAll ts))

def writtenAll : List Value → List Expression
  | [] => []
  | t :: ts => (written t).toExpression :: writtenAll ts

end

theorem charsAll_eq (ts : List Value) : charsAll ts = ts.map chars := by
  induction ts with
  | nil => rfl
  | cons t ts ih => rw [charsAll, ih, List.map_cons]

theorem writtenAll_eq (ts : List Value) :
    writtenAll ts = ts.map fun t => (written t).toExpression := by
  induction ts with
  | nil => rfl
  | cons t ts ih => rw [writtenAll, ih, List.map_cons]

theorem inRange_node {label : Label} {ts : List Value} :
    InRange (.node label ts) ↔ label.InRange ∧ ∀ t ∈ ts, t.InRange :=
  LabelledTree.forall_occurs_node

theorem inRange_leaf (label : Label) (h : label.InRange) : InRange (.node label []) :=
  inRange_node.mpr ⟨h, fun _ ht => nomatch ht⟩

end Value

/-! ## Lists with a comma between -/

namespace Grammar

open Parser Value

variable {α β : Type} {reals : Reals} {n : Nat} {t r : List Char}

/-- What follows a text in a list, or ends it. -/
def Closes (r : List Char) : Prop := ∀ c ∈ r.head?, c ∈ [',', ']', ')']

theorem Closes.skip_eq (hr : Closes r) : skip r = r := by
  cases r with
  | nil => rfl
  | cons c r =>
    have hall : ∀ c ∈ [',', ']', ')'], isSpace c = false ∧ c ≠ '/' := by decide
    exact skip_of_solid (solid_of_ne (hall c (hr c rfl)).1 (hall c (hr c rfl)).2)

/-- No text with this character at its beginning begins where a list goes on or ends. -/
theorem Closes.not_prefix {s : List Char} (hr : Closes r)
    (hs : s.head?.any fun c => !([',', ']', ')'].contains c)) : ¬ s <+: skip r := by
  rw [hr.skip_eq]
  exact not_prefix_of_head hs fun c hc => by
    rw [List.contains_iff_mem.mpr (hr c hc)]
    rfl

theorem Closes.noOperator (hr : Closes r) : NoOperator r := fun s hs => by
  have hall : ∀ s ∈ operators, s.toList.head?.any fun c => !([',', ']', ')'].contains c) := by decide
  exact hr.not_prefix (hall s hs)

/-- The beginning of a text is no blank and no comment. -/
def Firm (l : List Char) : Prop := ∀ r, skip (l ++ r) = l ++ r

theorem firm_cons {c : Char} {l : List Char} (hspace : isSpace c = false) (hc : c ≠ '/') :
    Firm (c :: l) := fun _ => skip_of_solid (solid_of_ne hspace hc)

/-- The rule reads this text, whatever closes it. -/
def ReadsText (p : Parser β) (b : β) (l : List Char) : Prop :=
  ∀ ⦃t r⦄, Closes r → skip t = l ++ r → p t = .ok b r

/-- The rule leaves an `m` of the text, or fails. -/
def Strays (p : Parser β) (l : List Char) : Prop :=
  ∀ ⦃t r⦄, Closes r → skip t = l ++ r →
    p t = .fail ∨ p t = .abort ∨ ∃ b u, p t = .ok b ('m' :: u)

theorem lit_comma_fail {c : Char} (hc : c ∈ [']', ')', 'm']) : lit "," (c :: r) = .fail := by
  have hall : ∀ c ∈ [']', ')', 'm'], isSpace c = false ∧ c ≠ '/' ∧ c ≠ ',' := by decide
  obtain ⟨hspace, hslash, hcomma⟩ := hall c hc
  refine lit_fail ?_
  rw [skip_of_solid (solid_of_ne hspace hslash)]
  exact not_prefix_of_head (p := fun d => d = ',') (by decide) fun d hd => by
    cases hd
    simpa using hcomma

section Lists

variable {p : Parser β} {f : α → List Char} {g : α → β} {as : List α}

theorem lit_comma_ok {l : List Char} : lit "," (',' :: l) = .ok () l :=
  lit_ok (skip_of_solid (solid_of_ne (by decide) (by decide)))

theorem closes_tail {c : Char} (hc : c ∈ [']', ')']) :
    Closes (as.flatMap (fun a => ',' :: ' ' :: f a) ++ c :: r) := by
  intro d hd
  cases as with
  | nil =>
    cases hd
    exact List.mem_cons_of_mem _ hc
  | cons a as =>
    cases hd
    exact List.mem_cons_self

theorem separated_cons {a : α} : separated ((a :: as).map f) =
    f a ++ as.flatMap fun a => ',' :: ' ' :: f a := by
  rw [List.map_cons, separated, List.flatMap_map]

variable (hfirm : ∀ a ∈ as, Firm (f a))
include hfirm

theorem many_separated {c : Char} (hread : ∀ a ∈ as, ReadsText p (g a) (f a))
    (hc : c ∈ [']', ')']) (hn : as.length ≤ n) :
    many (do lit ","; p) n (as.flatMap (fun a => ',' :: ' ' :: f a) ++ c :: r) =
      .ok (as.map g) (c :: r) := by
  induction as generalizing n with
  | nil =>
    have hall : ∀ c ∈ [']', ')'], c ∈ [']', ')', 'm'] := by decide
    exact many_fail (bind_fail (lit_comma_fail (hall c hc)))
  | cons a as ih =>
    obtain ⟨n, rfl⟩ : ∃ m, n = m + 1 := ⟨n - 1, by have := hn; rw [List.length_cons] at this; omega⟩
    obtain ⟨ha, has⟩ := List.forall_mem_cons.mp hread
    obtain ⟨hfirm, hfirms⟩ := List.forall_mem_cons.mp hfirm
    have hrest := ih hfirms has (Nat.le_of_succ_le_succ hn)
    have hskip : skip (' ' :: f a ++ (as.flatMap (fun a => ',' :: ' ' :: f a) ++ c :: r)) =
        f a ++ (as.flatMap (fun a => ',' :: ' ' :: f a) ++ c :: r) := by
      rw [List.cons_append, skip_blank, hfirm]
    rw [List.flatMap_cons, List.append_assoc]
    exact many_ok ((bind_ok lit_comma_ok).trans (ha (closes_tail hc) hskip)) hrest

/-- A list in which a text is not read is broken off before its end. -/
theorem many_separated_strays {c : Char} (hc : c ∈ [']', ')']) (good : α → Prop)
    (hread : ∀ a ∈ as, good a → ReadsText p (g a) (f a)) (hstray : ∀ a ∈ as, ¬ good a → Strays p (f a))
    (hbad : ∃ a ∈ as, ¬ good a) :
    many (do lit ","; p) n (as.flatMap (fun a => ',' :: ' ' :: f a) ++ c :: r) = .abort ∨
      ∃ bs d u, many (do lit ","; p) n (as.flatMap (fun a => ',' :: ' ' :: f a) ++ c :: r) =
        .ok bs (d :: u) ∧ (d = ',' ∨ d = 'm') := by
  induction as generalizing n with
  | nil =>
    obtain ⟨a, ha, -⟩ := hbad
    cases ha
  | cons a as ih =>
    cases n with
    | zero => exact .inr ⟨[], ',', _, rfl, .inl rfl⟩
    | succ n =>
      obtain ⟨hfirm, hfirms⟩ := List.forall_mem_cons.mp hfirm
      rw [List.flatMap_cons, List.append_assoc]
      have hskip : skip (' ' :: f a ++ (as.flatMap (fun a => ',' :: ' ' :: f a) ++ c :: r)) =
          f a ++ (as.flatMap (fun a => ',' :: ' ' :: f a) ++ c :: r) := by
        rw [List.cons_append, skip_blank, hfirm]
      by_cases ha : good a
      · have hp := (bind_ok (f := fun _ => p) lit_comma_ok).trans
          (hread a List.mem_cons_self ha (closes_tail hc) hskip)
        have hrest := ih hfirms (n := n) (fun b hb => hread b (List.mem_cons_of_mem _ hb))
          (fun b hb => hstray b (List.mem_cons_of_mem _ hb)) (by
            obtain ⟨b, hb, hnot⟩ := hbad
            rcases List.mem_cons.mp hb with rfl | hb
            · exact absurd ha hnot
            · exact ⟨b, hb, hnot⟩)
        rcases hrest with habort | ⟨bs, d, u, hok, hd⟩
        · exact .inl (many_ok_abort hp habort)
        · exact .inr ⟨_, d, u, many_ok hp hok, hd⟩
      · rcases hstray a List.mem_cons_self ha (closes_tail hc) hskip with h | h | ⟨b, u, h⟩
        · exact .inr ⟨[], ',', _, many_fail ((bind_ok lit_comma_ok).trans h), .inl rfl⟩
        · exact .inl (many_abort ((bind_ok lit_comma_ok).trans h))
        · have hnext : many (do lit ","; p) n ('m' :: u) = .ok [] ('m' :: u) :=
            many_fail (bind_fail (lit_comma_fail (by decide)))
          exact .inr ⟨[b], 'm', u, many_ok ((bind_ok lit_comma_ok).trans h) hnext, .inr rfl⟩

/-- A list between its brackets. -/
theorem enclosed_separated {w w' : String} {c : Char} (hc : c ∈ [']', ')'])
    (hopen : lit w t = .ok () (separated (as.map f) ++ c :: r)) (hclose : lit w' (c :: r) = .ok () r)
    (hempty : p (c :: r) = .fail) (hread : ∀ a ∈ as, ReadsText p (g a) (f a)) (hn : as.length ≤ n) :
    (do lit w; let es ← option (list n (lit ",") p); lit w'; return es.getD [] : Parser _) t =
      .ok (as.map g) r := by
  refine (bind_ok hopen).trans ?_
  cases as with
  | nil => exact (bind_ok (option_fail (list_fail hempty))).trans (bind_ok hclose)
  | cons a as =>
    obtain ⟨ha, has⟩ := List.forall_mem_cons.mp hread
    obtain ⟨hfirm, hfirms⟩ := List.forall_mem_cons.mp hfirm
    have hmany := many_separated (n := n) (r := r) hfirms has hc (Nat.le_of_succ_le hn)
    have hlist : list n (lit ",") p (separated ((a :: as).map f) ++ c :: r) =
        .ok ((a :: as).map g) (c :: r) := by
      rw [separated_cons, List.append_assoc]
      exact list_ok (ha (closes_tail hc) (hfirm _)) hmany
    exact (bind_ok (option_ok hlist)).trans (bind_ok hclose)

/-- The brackets are not read around a list in which a text is not read. -/
theorem enclosed_strays {w w' : String} {c : Char} (hc : c ∈ [']', ')']) (good : α → Prop)
    (hopen : lit w t = .ok () (separated (as.map f) ++ c :: r))
    (hfirst : ∀ a ∈ as, ∀ u, lit w' (f a ++ u) = .fail)
    (hnext : ∀ d ∈ [',', 'm'], ∀ u, lit w' (d :: u) = .fail)
    (hread : ∀ a ∈ as, good a → ReadsText p (g a) (f a)) (hstray : ∀ a ∈ as, ¬ good a → Strays p (f a))
    (hbad : ∃ a ∈ as, ¬ good a) :
    (do lit w; let es ← option (list n (lit ",") p); lit w'; return es.getD [] : Parser _) t = .fail ∨
      (do lit w; let es ← option (list n (lit ",") p); lit w'; return es.getD [] : Parser _) t =
        .abort := by
  rw [bind_ok hopen]
  cases as with
  | nil =>
    obtain ⟨a, ha, -⟩ := hbad
    cases ha
  | cons a as =>
    have hfirma := hfirm a List.mem_cons_self
    rw [separated_cons, List.append_assoc]
    have hskip := hfirma (as.flatMap (fun a => ',' :: ' ' :: f a) ++ c :: r)
    by_cases ha : good a
    · have hp := hread a List.mem_cons_self ha (closes_tail hc) hskip
      have hbad : ∃ b ∈ as, ¬ good b := by
        obtain ⟨b, hb, hnot⟩ := hbad
        rcases List.mem_cons.mp hb with rfl | hb
        · exact absurd ha hnot
        · exact ⟨b, hb, hnot⟩
      rcases many_separated_strays (n := n) (fun b hb => hfirm b (List.mem_cons_of_mem _ hb)) hc good
        (fun b hb => hread b (List.mem_cons_of_mem _ hb))
        (fun b hb => hstray b (List.mem_cons_of_mem _ hb)) hbad with habort | ⟨bs, d, u, hok, hd⟩
      · exact .inr (bind_abort (option_abort ((bind_ok hp).trans (bind_abort habort))))
      · exact .inl ((bind_ok (option_ok (list_ok hp hok))).trans
          (bind_fail (hnext d (by simpa using hd) u)))
    · rcases hstray a List.mem_cons_self ha (closes_tail hc) hskip with h | h | ⟨b, u, h⟩
      · exact .inl ((bind_ok (option_fail (list_fail h))).trans
          (bind_fail (hfirst a List.mem_cons_self _)))
      · exact .inr (bind_abort (option_abort (bind_abort h)))
      · have hmany : many (do lit ","; p) n ('m' :: u) = .ok [] ('m' :: u) :=
          many_fail (bind_fail (lit_comma_fail (by decide)))
        exact .inl ((bind_ok (option_ok (list_ok h hmany))).trans
          (bind_fail (hnext 'm' (by decide) u)))

end Lists

/-! ## Literals -/

theorem toList_toString_int64 (i : Int64) : (toString i).toList =
    if i.toInt < 0 then '-' :: (toString i.toInt.natAbs).toList
    else (toString i.toInt.natAbs).toList := by
  show (toString i.toInt).toList = _
  cases i.toInt with
  | ofNat k => rfl
  | negSucc k =>
    rw [if_pos (Int.negSucc_lt_zero k)]
    exact String.toList_append

theorem isDigit_head {k : Nat} : ∀ c ∈ ((toString k).toList ++ r).head?, c.isDigit = true := by
  intro c hc
  rw [List.head?_append_of_ne_nil _ (toString_ne_nil k)] at hc
  exact isDigit_of_mem_toString c (List.mem_of_mem_head? hc)

theorem firm_digits (k : Nat) (l : List Char) : Firm ((toString k).toList ++ l) := by
  intro r
  rw [List.append_assoc]
  cases hk : (toString k).toList with
  | nil => exact absurd hk (toString_ne_nil k)
  | cons d ds =>
    have hd : d.isDigit = true := isDigit_of_mem_toString d (hk ▸ List.mem_cons_self)
    have halnum : d.isAlphanum = true := by simp [Char.isAlphanum, hd]
    refine skip_of_solid (solid_of_ne (isSpace_of_continues ?_) (ne_of_isAlphanum halnum (by decide)))
    simp [continuesIdentifier, halnum]

/-- What the rules before that of literals begin with. -/
def openings : List String := ["await", "try"]

theorem not_prefix_of_digits {k : Nat} {s : String} (ht : skip t = (toString k).toList ++ r)
    (hs : s.toList.head?.any fun c => !c.isDigit) : ¬ s.toList <+: skip t :=
  not_prefix_of_head hs fun c hc => by
    rw [ht] at hc
    rw [isDigit_head c hc]
    rfl

section Leaves

variable {p : Parser Expression} {l : Literal}

theorem primaryExpr_of_literal (h : ∀ s ∈ openings, ¬ s.toList <+: skip t)
    (hl : literal reals t = .ok l r) : primaryExpr reals n p t = .ok (.literal l) r := by
  have hawait : lit "await" t = .fail := lit_fail (h "await" (by decide))
  have htry : lit "try" t = .fail := lit_fail (h "try" (by decide))
  rw [primaryExpr, firstOf_fail (bind_fail (awaitExpression_fail hawait)),
    firstOf_fail (bind_fail (tryExpression_fail htry))]
  exact firstOf_ok (bind_ok hl)

theorem unaryExpr_of_literal (h : ∀ s ∈ openings, ¬ s.toList <+: skip t)
    (hop : ∀ e ∈ unaryOp, ¬ e.1.toList <+: skip t) (hl : literal reals t = .ok l r) :
    unaryExpr reals n p t = .ok (.mk none (.literal l)) r :=
  (bind_ok (option_fail (symbol_fail hop))).trans (bind_ok (primaryExpr_of_literal h hl))

theorem openings_digits {k : Nat} (ht : skip t = (toString k).toList ++ r) :
    ∀ s ∈ openings, ¬ s.toList <+: skip t := fun s hs => by
  have hall : ∀ s ∈ openings, s.toList.head?.any fun c => !c.isDigit := by decide
  exact not_prefix_of_digits ht (hall s hs)

theorem unaryOp_digits {k : Nat} (ht : skip t = (toString k).toList ++ r) :
    symbol unaryOp t = .fail := symbol_fail fun e he => by
  have hall : ∀ e ∈ unaryOp, e.1.toList.head?.any fun c => !c.isDigit := by decide
  exact not_prefix_of_digits ht (hall e he)

/-- Where no literal is read, nothing is read that begins with a digit. -/
theorem primaryExpr_digits_fail {k : Nat} (ht : skip t = (toString k).toList ++ r)
    (hl : literal reals t = .fail) : primaryExpr reals n p t = .fail := by
  have hlit : ∀ {s : String}, (s.toList.head?.any fun c => !c.isDigit) → lit s t = .fail :=
    fun hs => lit_fail (not_prefix_of_digits ht hs)
  have hstart : ∀ c : Char, c.isDigit = true → startsIdentifier c = false := fun c hc => by
    by_contra hs
    rw [isDigit_of_starts (by simpa using hs)] at hc
    cases hc
  have hid : identifier t = .fail := identifier_fail fun c hc =>
    hstart c (isDigit_head c (ht ▸ hc))
  rw [primaryExpr, firstOf_fail (bind_fail (awaitExpression_fail (hlit (by decide)))),
    firstOf_fail (bind_fail (tryExpression_fail (hlit (by decide)))), firstOf_fail (bind_fail hl),
    firstOf_fail (bind_fail (functionCall_fail (identifierPath_fail hid))),
    firstOf_fail (bind_fail (identifierPath_fail hid)),
    firstOf_fail (bind_fail (array_fail (hlit (by decide)))),
    firstOf_fail (bind_fail (dictionary_fail (hlit (by decide)))),
    firstOf_fail (bind_fail (parenthesised_fail (hlit (by decide))))]
  rfl

/-- A sign, and what follows it. -/
theorem unaryExpr_minus {u : List Char} (ht : skip t = '-' :: u) :
    unaryExpr reals n p t = (do let e ← primaryExpr reals n p; return UnaryExpression.mk (some .minus) e) u := by
  have hop : symbol unaryOp t = .ok .minus u := by
    refine symbol_ok (w := "-") (by decide) (by decide) ht fun e he hp => ?_
    rw [ht] at hp
    have hall : ∀ e ∈ unaryOp, e.1 = "-" ∨ e.1.toList.head?.any fun c => c ≠ '-' := by decide
    rcases hall e he with heq | hhead
    · exact heq ▸ List.prefix_refl _
    · refine absurd hp (not_prefix_of_head hhead fun c hc => ?_)
      cases hc
      rfl
  exact bind_ok (option_ok hop)

end Leaves

section Numbers

variable {k : Nat}

theorem no_durationUnit (hr : Closes r) : ∀ e ∈ durationUnit, ¬ e.1.toList <+: r := by
  have hall : ∀ e ∈ durationUnit, e.1.toList.head?.any fun c => !([',', ']', ')'].contains c) := by
    decide
  intro e he
  have h := hr.not_prefix (hall e he)
  rwa [hr.skip_eq] at h

theorem Closes.head {c : Char} (hr : Closes r) (hc : c ∈ r.head?) :
    c.isDigit = false ∧ c ≠ '.' ∧ c ≠ 'e' ∧ c ≠ 'E' := by
  have hall : ∀ c ∈ [',', ']', ')'], c.isDigit = false ∧ c ≠ '.' ∧ c ≠ 'e' ∧ c ≠ 'E' := by decide
  exact hall c (hr c hc)

/-- The number of an integer, without its sign. -/
theorem literal_integer (hr : Closes r) (ht : skip t = (toString k).toList ++ r) :
    literal reals t = if k < 2 ^ 31 then .ok (.integer (Int64.ofInt k)) r else .fail :=
  literal_number ht (no_durationUnit hr) (fun _ hc => (hr.head hc).1)
    fun _ hc => (hr.head hc).2

/-- A count of more than 32 bits begins no literal, whatever the unit. -/
theorem literal_large (hk : 2 ^ 32 ≤ k) (ht : skip t = (toString k).toList ++ r) (hr : NoDigit r)
    (hf : NoFraction r) : literal reals t = .fail := by
  have hs : Unsigned (skip t) := ht ▸ unsigned_digits k
  have hd : lexeme duration t = .fail := bind_fail (show uint (skip t) = .fail from
    ht ▸ digits_out_of_range (by omega) hr)
  have hreal : real reals t = .fail := by rw [real_eq hs, ht, unsignedReal_digits hr hf]
  have hi : integer t = .fail := by
    rw [integer_eq hs, ht]
    exact bind_fail (digits_out_of_range (by omega) hr)
  rw [literal_digits ht, firstOf_fail (bind_fail hd), firstOf_fail (bind_fail hreal),
    firstOf_fail (bind_fail hi)]
  rfl

theorem suffix_head (unit : DurationUnit) : NoDigit (unit.suffix.toList ++ r) ∧
    NoFraction (unit.suffix.toList ++ r) := by
  constructor
  · intro c hc
    cases unit <;> cases hc <;> rfl
  · intro c hc
    cases unit <;> cases hc <;> decide

/-- The unit of minutes is printed as `min`, and read as `mn`. -/
theorem literal_minutes (ht : skip t = (toString k).toList ++ ("min".toList ++ r)) :
    literal reals t =
      if k < 2 ^ 31 then .ok (.integer (Int64.ofInt k)) ("min".toList ++ r) else .fail := by
  have hunit : ∀ e ∈ durationUnit, ¬ e.1.toList <+: "min".toList ++ r := by
    have hall : ∀ e ∈ durationUnit, ¬ e.1.toList <+: "min".toList ∧ ¬ "min".toList <+: e.1.toList := by
      decide
    intro e he hp
    rcases List.prefix_or_prefix_of_prefix hp (List.prefix_append _ _) with h | h
    · exact (hall e he).1 h
    · exact (hall e he).2 h
  exact literal_number ht hunit (suffix_head .min).1 (suffix_head .min).2

end Numbers

/-! ## The beginnings of texts -/

theorem of_beginsExpression {c : Char} (h : beginsExpression c = true) :
    isSpace c = false ∧ c ∉ ['/', ',', ']', ')', '='] := by
  constructor
  · by_cases hc : continuesIdentifier c = true
    · exact isSpace_of_continues hc
    · have hsign : c ∈ ['\'', '"', '.', '+', '-', '(', '['] := by
        simp only [continuesIdentifier, Char.isAlphanum, Bool.or_eq_true, not_or] at hc
        simp only [beginsExpression, beginsLiteral, startsIdentifier, Bool.or_eq_true,
          List.contains_iff_mem] at h
        simp only [List.mem_cons, List.not_mem_nil, or_false] at h ⊢
        simp_all [or_assoc]
      have hall : ∀ c ∈ ['\'', '"', '.', '+', '-', '(', '['], isSpace c = false := by decide
      exact hall c hsign
  · have hall : ∀ c ∈ ['/', ',', ']', ')', '='], beginsExpression c = false := by decide
    intro hc
    rw [hall c hc] at h
    cases h

theorem chars_cons {x : Value} (h : x.HasSyntax) :
    ∃ c l, x.chars = c :: l ∧ beginsExpression c = true := by
  have hdigits : ∀ (k : Nat) (l : List Char),
      ∃ c l', (toString k).toList ++ l = c :: l' ∧ beginsExpression c = true := fun k l => by
    cases hk : (toString k).toList with
    | nil => exact absurd hk (toString_ne_nil k)
    | cons d ds =>
      have hd : d.isDigit = true := isDigit_of_mem_toString d (hk ▸ List.mem_cons_self)
      exact ⟨d, ds ++ l, rfl, by simp [beginsExpression, beginsLiteral, hd]⟩
  cases h with
  | boolean b => cases b <;> exact ⟨_, _, rfl, by decide⟩
  | integer i =>
    rw [Value.chars, toList_toString_int64]
    split
    · exact ⟨_, _, rfl, by decide⟩
    · simpa using hdigits i.toInt.natAbs []
  | duration d => exact hdigits d.count.toNat d.unit.suffix.toList
  | string s hs => exact ⟨_, _, by rw [Value.chars], by decide⟩
  | array h => exact ⟨_, _, by rw [Value.chars], by decide⟩
  | dictionary hlen hk h => exact ⟨_, _, by rw [Value.chars], by decide⟩

theorem firm_chars {x : Value} (h : x.HasSyntax) : Firm x.chars := by
  obtain ⟨c, l, hc, hb⟩ := chars_cons h
  obtain ⟨hspace, hne⟩ := of_beginsExpression hb
  rw [hc]
  refine firm_cons hspace ?_
  rintro rfl
  exact hne (by decide)

/-- A sign that no expression begins with is not at the beginning of a text. -/
theorem lit_chars_fail {x : Value} (h : x.HasSyntax) {s : String} {c : Char} (hs : s.toList = [c])
    (hc : c ∈ ['/', ',', ']', ')', '=']) (u : List Char) : lit s (x.chars ++ u) = .fail := by
  obtain ⟨d, l, hd, hb⟩ := chars_cons h
  have hne := (of_beginsExpression hb).2
  refine lit_fail ?_
  rw [firm_chars h, hd, hs]
  rintro ⟨v, hv⟩
  cases hv
  exact hne hc

theorem firm_entryChars {key : String} (hk : identifier key.toList = .ok key []) (l : List Char) :
    Firm (entryChars key l) := fun r => by
  obtain ⟨-, hword, hne⟩ := word_of_identifier hk
  rw [entryChars, List.append_assoc]
  exact hword.skip_append hne

theorem stop_entry {x : Value} (h : x.HasSyntax) (r : List Char) :
    Stop ('=' :: (x.chars ++ r)) := by
  have hskip : skip ('=' :: (x.chars ++ r)) = '=' :: (x.chars ++ r) :=
    skip_of_solid (solid_of_ne (by decide) (by decide))
  refine ⟨fun c hc => .inr (.inr ?_), fun c hc => .inr ?_, ?_⟩
  · cases hc
    rfl
  · rw [hskip] at hc
    cases hc
    rfl
  · obtain ⟨d, l, hd, hb⟩ := chars_cons h
    rw [hskip, hd]
    rintro ⟨u, hu⟩
    cases hu
    exact (of_beginsExpression hb).2 (by decide)

/-- An entry is read where its value is. -/
theorem assignment_eq {key : String} (hk : identifier key.toList = .ok key []) {x : Value}
    (h : x.HasSyntax) {p : Parser Expression} (ht : skip t = entryChars key x.chars ++ r) :
    assignment p t = (do let value ← p; return Assignment.mk key value) (x.chars ++ r) := by
  obtain ⟨-, hword, hne⟩ := word_of_identifier hk
  have hstop := stop_entry h r
  have hkey : identifier (key.toList ++ '=' :: (x.chars ++ r)) = .ok key ('=' :: (x.chars ++ r)) := by
    rw [agrees_identifier hstop hword, hk, Parsed.append, List.nil_append]
  have hid : identifier t = .ok key ('=' :: (x.chars ++ r)) := by
    rw [← hkey]
    refine identifier_congr ?_
    rw [ht, hword.skip_append hne, entryChars, List.append_assoc, List.cons_append]
  have heq : lit "=" ('=' :: (x.chars ++ r)) = .ok () (x.chars ++ r) :=
    lit_ok (skip_of_solid (solid_of_ne (by decide) (by decide)))
  exact (bind_ok hid).trans (bind_ok heq)

theorem ReadsText.entry {key : String} (hk : identifier key.toList = .ok key []) {x : Value}
    (h : x.HasSyntax) {p : Parser Expression} {e : Expression} (hp : ReadsText p e x.chars) :
    ReadsText (assignment p) ⟨key, e⟩ (entryChars key x.chars) := fun t r hr ht => by
  rw [assignment_eq hk h ht]
  exact bind_ok (hp hr (firm_chars h r))

theorem Strays.entry {key : String} (hk : identifier key.toList = .ok key []) {x : Value}
    (h : x.HasSyntax) {p : Parser Expression} (hp : Strays p x.chars) :
    Strays (assignment p) (entryChars key x.chars) := fun t r hr ht => by
  rw [assignment_eq hk h ht]
  rcases hp hr (firm_chars h r) with h | h | ⟨b, u, h⟩
  · exact .inl (bind_fail h)
  · exact .inr (.inl (bind_abort h))
  · exact .inr (.inr ⟨_, u, bind_ok h⟩)

/-! ## Reading a value -/

theorem length_separated {ls : List (List Char)} :
    ls.length ≤ (separated ls).length + 1 ∧ ∀ l ∈ ls, l.length ≤ (separated ls).length := by
  have htail : ∀ ls : List (List Char),
      ls.length ≤ (ls.flatMap fun m => ',' :: ' ' :: m).length ∧
        ∀ l ∈ ls, l.length ≤ (ls.flatMap fun m => ',' :: ' ' :: m).length := by
    intro ls
    induction ls with
    | nil => exact ⟨Nat.le_refl _, nofun⟩
    | cons l ls ih =>
      simp only [List.flatMap_cons, List.length_append, List.length_cons, List.forall_mem_cons]
      exact ⟨by omega, by omega, fun m hm => by have := ih.2 m hm; omega⟩
  cases ls with
  | nil => exact ⟨Nat.zero_le _, nofun⟩
  | cons l ls =>
    obtain ⟨hlen, hmem⟩ := htail ls
    simp only [separated, List.length_append, List.length_cons, List.forall_mem_cons]
    exact ⟨by omega, by omega, fun m hm => by have := hmem m hm; omega⟩

theorem chars_array (ts : List Value) : Value.chars (.node .array ts) =
    '[' :: (separated (ts.map Value.chars) ++ [']']) := by
  rw [Value.chars, charsAll_eq]

/-- The text of an entry. -/
def entryText (entry : String × Value) : List Char := entryChars entry.1 entry.2.chars

theorem chars_dictionary (keys : List String) (ts : List Value) :
    Value.chars (.node (.dictionary .dictionary keys) ts) =
      '(' :: (separated ((keys.zip ts).map entryText) ++ [')']) := by
  rw [Value.chars, charsAll_eq, List.zipWith_map_right, List.map_zip_eq_zipWith]
  rfl

def entryWritten (entry : String × Value) : Assignment Expression :=
  ⟨entry.1, entry.2.written.toExpression⟩

theorem written_dictionary (keys : List String) (ts : List Value) :
    Value.written (.node (.dictionary .dictionary keys) ts) =
      .mk none (.dictionary ((keys.zip ts).map entryWritten)) := by
  rw [Value.written, writtenAll_eq, List.zipWith_map_right, List.map_zip_eq_zipWith]
  rfl

theorem written_array (ts : List Value) : Value.written (.node .array ts) =
    .mk none (.array (ts.map fun t => t.written.toExpression)) := by
  rw [Value.written, writtenAll_eq]
  all_goals nofun

/-- No operator and no literal begins with a bracket. -/
theorem of_bracket {c : Char} {l : List Char} (hc : c ∈ ['[', '(']) (ht : skip t = c :: l) :
    symbol unaryOp t = .fail ∧ ∀ d ∈ (skip t).head?, beginsLiteral d = false := by
  have hall : ∀ c ∈ ['[', '('], beginsLiteral c = false ∧
      ∀ e ∈ unaryOp, e.1.toList.head?.any fun d => d ≠ c := by decide
  constructor
  · exact symbol_fail fun e he => not_prefix_of_head ((hall c hc).2 e he) fun d hd => by
      rw [ht] at hd
      cases hd
      simp
  · intro d hd
    rw [ht] at hd
    cases hd
    exact (hall c hc).1

theorem array_bracket_fail {l : List Char} (ht : skip t = '(' :: l) {p : Parser Expression} :
    array n p t = .fail := array_fail (lit_fail (by
  rw [ht]
  rintro ⟨u, hu⟩
  cases hu))

theorem lit_paren_fail {l : List Char} (ht : skip t = '[' :: l) : lit "(" t = .fail :=
  lit_fail (by
    rw [ht]
    rintro ⟨u, hu⟩
    cases hu)

theorem reads_integer {i : Int64} (hi : i.toInt.natAbs < 2 ^ 31) {m : Nat} :
    ReadsText (expression reals (m + 1)) (Value.written (.node (.integer i) [])).toExpression
      (Value.chars (.node (.integer i) [])) := by
  intro t r hr ht
  refine expression_of_unary hr.noOperator ?_
  rw [Value.chars, toList_toString_int64] at ht
  rw [Value.written]
  split at ht
  next hneg =>
    have hdigits : skip ((toString i.toInt.natAbs).toList ++ r) =
        (toString i.toInt.natAbs).toList ++ r := by simpa using firm_digits i.toInt.natAbs [] r
    have hl : literal reals _ = _ := literal_integer hr hdigits
    rw [if_pos hi] at hl
    rw [if_pos hneg, unaryExpr_minus ht]
    exact bind_ok (primaryExpr_of_literal (openings_digits hdigits) hl)
  next hneg =>
    have hl : literal reals t = _ := literal_integer hr ht
    rw [if_pos hi] at hl
    rw [if_neg hneg]
    exact (bind_ok (option_fail (unaryOp_digits ht))).trans
      (bind_ok (primaryExpr_of_literal (openings_digits ht) hl))

theorem strays_integer {i : Int64} (hi : ¬ i.toInt.natAbs < 2 ^ 31) {m : Nat} :
    Strays (expression reals (m + 1)) (Value.chars (.node (.integer i) [])) := by
  intro t r hr ht
  refine .inl (expression_of_unary_fail ?_)
  rw [Value.chars, toList_toString_int64] at ht
  split at ht
  next =>
    have hdigits : skip ((toString i.toInt.natAbs).toList ++ r) =
        (toString i.toInt.natAbs).toList ++ r := by simpa using firm_digits i.toInt.natAbs [] r
    have hl : literal reals _ = _ := literal_integer hr hdigits
    rw [if_neg hi] at hl
    rw [unaryExpr_minus ht]
    exact bind_fail (primaryExpr_digits_fail hdigits hl)
  next =>
    have hl : literal reals t = _ := literal_integer hr ht
    rw [if_neg hi] at hl
    exact (bind_ok (option_fail (unaryOp_digits ht))).trans
      (bind_fail (primaryExpr_digits_fail ht hl))

theorem reads_duration {d : Duration} (hunit : d.unit ≠ .min) (hcount : d.count.toNat < 2 ^ 32)
    {m : Nat} :
    ReadsText (expression reals (m + 1)) (Value.written (.node (.duration d) [])).toExpression
      (Value.chars (.node (.duration d) [])) := by
  intro t r hr ht
  have hsuffix : (d.unit.suffix, d.unit) ∈ durationUnit := by
    revert hunit
    cases d.unit <;> decide
  have ht : skip t = (toString d.count.toNat).toList ++ (d.unit.suffix.toList ++ r) := by
    rw [ht, Value.chars, List.append_assoc]
    rfl
  have hl : literal reals t = _ := literal_duration hcount hsuffix ht
  rw [UInt64.ofNat_toNat] at hl
  refine expression_of_unary hr.noOperator ?_
  rw [Value.written]
  exact (bind_ok (option_fail (unaryOp_digits ht))).trans
    (bind_ok (primaryExpr_of_literal (openings_digits ht) hl))

theorem strays_duration {d : Duration} (h : ¬ (d.unit ≠ .min ∧ d.count.toNat < 2 ^ 32)) {m : Nat} :
    Strays (expression reals (m + 1)) (Value.chars (.node (.duration d) [])) := by
  intro t r hr ht
  have ht : skip t = (toString d.count.toNat).toList ++ (d.unit.suffix.toList ++ r) := by
    rw [ht, Value.chars, List.append_assoc]
    rfl
  have hunary : ∀ {l : Literal} {u : List Char}, literal reals t = .ok l u →
      unaryExpr reals m (expression reals m) t = .ok (.mk none (.literal l)) u := fun hl =>
    (bind_ok (option_fail (unaryOp_digits ht))).trans
      (bind_ok (primaryExpr_of_literal (openings_digits ht) hl))
  have hfail : literal reals t = .fail → expression reals (m + 1) t = .fail := fun hl =>
    expression_of_unary_fail ((bind_ok (option_fail (unaryOp_digits ht))).trans
      (bind_fail (primaryExpr_digits_fail ht hl)))
  by_cases hlarge : 2 ^ 32 ≤ d.count.toNat
  · exact .inl (hfail (literal_large hlarge ht (suffix_head d.unit).1 (suffix_head d.unit).2))
  · have hmin : d.unit = .min := by
      by_contra hne
      exact h ⟨hne, Nat.lt_of_not_le hlarge⟩
    rw [hmin] at ht
    have hl : literal reals t = _ := literal_minutes ht
    split at hl
    next =>
      have hnone : NoOperator ("min".toList ++ r) := by
        have hskip : skip ("min".toList ++ r) = "min".toList ++ r :=
          skip_of_solid (solid_of_ne (by decide) (by decide))
        have hall : ∀ s ∈ operators, s.toList.head?.any fun c => c ≠ 'm' := by decide
        intro s hs
        rw [hskip]
        exact not_prefix_of_head (hall s hs) fun c hc => by
          cases hc
          rfl
      exact .inr (.inr ⟨_, _, expression_of_unary hnone (hunary hl)⟩)
    next => exact .inl (hfail hl)

theorem skip_closer {c : Char} (hc : c ∈ [',', 'm', ']', ')']) : skip (c :: r) = c :: r := by
  have hall : ∀ c ∈ [',', 'm', ']', ')'], isSpace c = false ∧ c ≠ '/' := by decide
  exact skip_of_solid (solid_of_ne (hall c hc).1 (hall c hc).2)

theorem lit_closer_ok {s : String} {c : Char} (hs : s.toList = [c]) (hc : c ∈ [']', ')']) :
    lit s (c :: r) = .ok () r := by
  refine lit_ok ?_
  rw [skip_closer (List.mem_cons_of_mem _ (List.mem_cons_of_mem _ hc)), hs, List.singleton_append]

theorem lit_closer_fail {s : String} {c : Char} (hs : s.toList = [c]) (hc : c ∈ [']', ')']) :
    ∀ d ∈ [',', 'm'], ∀ u, lit s (d :: u) = .fail := by
  intro d hd u
  have hne : ∀ c ∈ [']', ')'], ∀ d ∈ [',', 'm'], c ≠ d := by decide
  refine lit_fail ?_
  rw [skip_closer (List.mem_append_left [']', ')'] hd), hs]
  rintro ⟨v, hv⟩
  cases hv
  exact hne c hc c hd rfl

theorem expression_closer {c : Char} {m : Nat} (hc : c ∈ [']', ')']) :
    expression reals m (c :: r) = .fail := by
  have hall : ∀ c ∈ [']', ')'], beginsExpression c = false := by decide
  refine expression_fail m fun d hd => ?_
  rw [skip_closer (List.mem_cons_of_mem _ (List.mem_cons_of_mem _ hc))] at hd
  cases hd
  exact hall c hc

section Brackets

variable {m : Nat} {ts : List Value} {keys : List String}

theorem fuel_array (hn : (Value.chars (.node .array ts)).length ≤ m) :
    ts.length ≤ m ∧ ∀ t ∈ ts, t.chars.length < m := by
  rw [chars_array, List.length_cons, List.length_append] at hn
  obtain ⟨hlen, hmem⟩ := @length_separated (ts.map Value.chars)
  rw [List.length_map] at hlen
  exact ⟨by simp at hn; omega, fun t ht => by
    have := hmem _ (List.mem_map_of_mem ht)
    simp at hn
    omega⟩

/-- The opening bracket of an array, and what is left to its end. -/
theorem open_array {t r : List Char} (ht : skip t = Value.chars (.node .array ts) ++ r) :
    skip t = '[' :: (separated (ts.map Value.chars) ++ ']' :: r) := by
  rw [ht, chars_array, List.cons_append, List.append_assoc, List.singleton_append]

theorem reads_array (h : ∀ t ∈ ts, t.HasSyntax)
    (hread : ∀ t ∈ ts, ReadsText (expression reals m) t.written.toExpression t.chars)
    (hn : (Value.chars (.node .array ts)).length ≤ m) :
    ReadsText (expression reals (m + 1)) (Value.written (.node .array ts)).toExpression
      (Value.chars (.node .array ts)) := by
  intro t r hr ht
  have ht := open_array ht
  obtain ⟨hop, hbegins⟩ := of_bracket (by decide) ht
  have harray : array m (expression reals m) t =
      .ok (ts.map fun t => t.written.toExpression) r :=
    enclosed_separated (fun t ht => firm_chars (h t ht)) (by decide) (lit_ok ht)
      (lit_closer_ok rfl (by decide)) (expression_closer (by decide)) hread (fuel_array hn).1
  refine expression_of_unary hr.noOperator ?_
  rw [written_array]
  refine (bind_ok (option_fail hop)).trans (bind_ok ?_)
  rw [primaryExpr_symbol hbegins]
  exact firstOf_ok (bind_ok harray)

theorem strays_array (h : ∀ t ∈ ts, t.HasSyntax)
    (hread : ∀ t ∈ ts, t.InRange → ReadsText (expression reals m) t.written.toExpression t.chars)
    (hstray : ∀ t ∈ ts, ¬ t.InRange → Strays (expression reals m) t.chars)
    (hbad : ∃ t ∈ ts, ¬ t.InRange) :
    Strays (expression reals (m + 1)) (Value.chars (.node .array ts)) := by
  intro t r hr ht
  have ht := open_array ht
  obtain ⟨hop, hbegins⟩ := of_bracket (by decide) ht
  have harray : array m (expression reals m) t = .fail ∨ array m (expression reals m) t = .abort :=
    enclosed_strays (fun t ht => firm_chars (h t ht)) (by decide) Value.InRange (lit_ok ht)
      (fun t ht u => lit_chars_fail (h t ht) rfl (by decide) u)
      (lit_closer_fail rfl (by decide)) hread hstray hbad
  rcases harray with hfail | habort
  · refine .inl (expression_of_unary_fail ((bind_ok (option_fail hop)).trans (bind_fail ?_)))
    rw [primaryExpr_symbol hbegins, firstOf_fail (bind_fail hfail),
      firstOf_fail (bind_fail (dictionary_fail (lit_paren_fail ht))),
      firstOf_fail (bind_fail (parenthesised_fail (lit_paren_fail ht)))]
    rfl
  · refine .inr (.inl (expression_of_unary_abort ((bind_ok (option_fail hop)).trans (bind_abort ?_))))
    rw [primaryExpr_symbol hbegins]
    exact firstOf_abort (bind_abort habort)

theorem fuel_dictionary (hn : (Value.chars (.node (.dictionary .dictionary keys) ts)).length ≤ m) :
    (keys.zip ts).length ≤ m ∧
      ∀ entry ∈ keys.zip ts, entry.1.toList.length < m ∧ entry.2.chars.length < m := by
  rw [chars_dictionary, List.length_cons, List.length_append] at hn
  obtain ⟨hlen, hmem⟩ := @length_separated ((keys.zip ts).map entryText)
  rw [List.length_map] at hlen
  rw [List.length_singleton] at hn
  refine ⟨by omega, fun entry he => ?_⟩
  have hle := hmem _ (List.mem_map_of_mem he)
  rw [entryText, entryChars, List.length_append, List.length_cons] at hle
  omega

theorem open_dictionary {t r : List Char}
    (ht : skip t = Value.chars (.node (.dictionary .dictionary keys) ts) ++ r) :
    skip t = '(' :: (separated ((keys.zip ts).map entryText) ++ ')' :: r) := by
  rw [ht, chars_dictionary, List.cons_append, List.append_assoc, List.singleton_append]

theorem assignment_closer {p : Parser Expression} : assignment p (')' :: r) = .fail := by
  have hid : identifier (')' :: r) = .fail := identifier_fail fun c hc => by
    rw [skip_closer (by decide)] at hc
    cases hc
    decide
  exact bind_fail hid

theorem exists_entry (hlen : keys.length = ts.length) {t : Value} (ht : t ∈ ts) :
    ∃ entry ∈ keys.zip ts, entry.2 = t := by
  rw [← @List.map_snd_zip _ _ keys ts (Nat.le_of_eq hlen.symm)] at ht
  exact List.mem_map.mp ht

section Entries

variable (hk : ∀ key ∈ keys, identifier key.toList = .ok key [])
include hk

theorem firm_entries : ∀ entry ∈ keys.zip ts, Firm (entryText entry) := fun _ he =>
  firm_entryChars (hk _ (List.of_mem_zip he).1) _

variable (h : ∀ t ∈ ts, t.HasSyntax)
include h

theorem reads_dictionary
    (hread : ∀ t ∈ ts, ReadsText (expression reals m) t.written.toExpression t.chars)
    (hn : (Value.chars (.node (.dictionary .dictionary keys) ts)).length ≤ m) :
    ReadsText (expression reals (m + 1))
      (Value.written (.node (.dictionary .dictionary keys) ts)).toExpression
      (Value.chars (.node (.dictionary .dictionary keys) ts)) := by
  intro t r hr ht
  have ht := open_dictionary ht
  obtain ⟨hop, hbegins⟩ := of_bracket (by decide) ht
  have hentries : ∀ entry ∈ keys.zip ts,
      ReadsText (assignment (expression reals m)) (entryWritten entry) (entryText entry) :=
    fun entry he => .entry (hk _ (List.of_mem_zip he).1) (h _ (List.of_mem_zip he).2)
      (hread _ (List.of_mem_zip he).2)
  have hdictionary : dictionary m (expression reals m) t =
      .ok ((keys.zip ts).map entryWritten) r :=
    enclosed_separated (firm_entries hk) (by decide) (lit_ok ht) (lit_closer_ok rfl (by decide))
      assignment_closer hentries (fuel_dictionary hn).1
  refine expression_of_unary hr.noOperator ?_
  rw [written_dictionary]
  refine (bind_ok (option_fail hop)).trans (bind_ok ?_)
  rw [primaryExpr_symbol hbegins, firstOf_fail (bind_fail (array_bracket_fail ht))]
  exact firstOf_ok (bind_ok hdictionary)

/-- A dictionary is no expression in parentheses: what is read of its first key, a `=` follows. -/
theorem parenthesised_abort {t r : List Char} (hne : keys.zip ts ≠ [])
    (hfuel : ∀ entry ∈ keys.zip ts, entry.1.toList.length < m)
    (ht : skip t = '(' :: (separated ((keys.zip ts).map entryText) ++ ')' :: r)) :
    parenthesised (expression reals m) t = .abort := by
  cases hzip : keys.zip ts with
  | nil => exact absurd hzip hne
  | cons entry entries =>
    have hmem : entry ∈ keys.zip ts := hzip ▸ List.mem_cons_self
    obtain ⟨hkey, hvalue⟩ := List.of_mem_zip hmem
    obtain ⟨-, hword, -⟩ := word_of_identifier (hk _ hkey)
    obtain ⟨rest, hrest⟩ : ∃ rest, separated ((keys.zip ts).map entryText) ++ ')' :: r =
        entry.1.toList ++ '=' :: (entry.2.chars ++ rest) := by
      refine ⟨entries.flatMap (fun e => ',' :: ' ' :: entryText e) ++ ')' :: r, ?_⟩
      rw [hzip, separated_cons, entryText, entryChars]
      simp
    have hstop := stop_entry (h _ hvalue) rest
    have hread : expression reals m (entry.1.toList ++ '=' :: (entry.2.chars ++ rest)) = _ :=
      agrees_expression hstop (hfuel entry hmem) (Nat.le_refl _) ⟨hword, Nat.lt_succ_self _⟩
    rw [hrest] at ht
    refine (bind_ok (lit_ok (w := "(") ht)).trans ?_
    cases hu : expression reals (entry.1.toList.length + 1) entry.1.toList with
    | ok e u =>
      rw [hu] at hread
      have hclose : lit ")" (u ++ '=' :: (entry.2.chars ++ rest)) = .fail :=
        sign_fail hstop (hword.suffix (shortens_expression _ hu)) (by decide) (by decide)
      exact (bind_ok (expect_ok hread)).trans (bind_abort (expect_fail hclose))
    | fail =>
      rw [hu] at hread
      exact bind_abort (expect_fail hread)
    | abort =>
      rw [hu] at hread
      exact bind_abort (expect_abort hread)

theorem strays_dictionary
    (hread : ∀ t ∈ ts, t.InRange → ReadsText (expression reals m) t.written.toExpression t.chars)
    (hstray : ∀ t ∈ ts, ¬ t.InRange → Strays (expression reals m) t.chars)
    (hbad : ∃ entry ∈ keys.zip ts, ¬ entry.2.InRange)
    (hn : (Value.chars (.node (.dictionary .dictionary keys) ts)).length ≤ m) :
    Strays (expression reals (m + 1)) (Value.chars (.node (.dictionary .dictionary keys) ts)) := by
  intro t r hr ht
  have ht := open_dictionary ht
  obtain ⟨hop, hbegins⟩ := of_bracket (by decide) ht
  have hdictionary : dictionary m (expression reals m) t = .fail ∨
      dictionary m (expression reals m) t = .abort :=
    enclosed_strays (firm_entries hk) (by decide) (fun entry => entry.2.InRange) (lit_ok ht)
      (fun entry he u => by
        obtain ⟨-, hword, hne⟩ := word_of_identifier (hk _ (List.of_mem_zip he).1)
        refine lit_fail ?_
        rw [firm_entries hk entry he, entryText, entryChars, List.append_assoc]
        refine not_prefix_of_head (p := fun c => !continuesIdentifier c) (by decide) fun c hc => ?_
        rw [List.head?_append_of_ne_nil _ hne] at hc
        rw [hword c (List.mem_of_mem_head? hc)]
        rfl)
      (lit_closer_fail rfl (by decide))
      (fun entry he hgood => .entry (hk _ (List.of_mem_zip he).1) (h _ (List.of_mem_zip he).2)
        (hread _ (List.of_mem_zip he).2 hgood))
      (fun entry he hnot => .entry (hk _ (List.of_mem_zip he).1) (h _ (List.of_mem_zip he).2)
        (hstray _ (List.of_mem_zip he).2 hnot)) hbad
  refine .inr (.inl (expression_of_unary_abort ((bind_ok (option_fail hop)).trans (bind_abort ?_))))
  rw [primaryExpr_symbol hbegins, firstOf_fail (bind_fail (array_bracket_fail ht))]
  rcases hdictionary with hfail | habort
  · obtain ⟨entry, he, -⟩ := hbad
    have hparen : parenthesised (expression reals m) t = .abort :=
      parenthesised_abort hk h (List.ne_nil_of_mem he)
        (fun entry he => ((fuel_dictionary hn).2 entry he).1) ht
    rw [firstOf_fail (bind_fail hfail)]
    exact firstOf_abort (bind_abort hparen)
  · exact firstOf_abort (bind_abort habort)

end Entries

end Brackets

/-- **A value without such numbers is read as it is written.** -/
theorem reads_chars {x : Value} (h : x.HasSyntax) (hx : x.InRange) (hn : x.chars.length < n) :
    ReadsText (expression reals n) x.written.toExpression x.chars := by
  induction h generalizing n with
  | boolean b =>
    obtain ⟨m, rfl⟩ : ∃ m, n = m + 1 := ⟨n - 1, by omega⟩
    intro t r hr ht
    have hboolean : ∀ b : Bool, ((if b then "true" else "false"), b) ∈ boolean := by decide
    have hopenings : ∀ e ∈ boolean, ∀ s ∈ openings ++ unaryOp.map Prod.fst,
        ¬ s.toList <+: e.1.toList ∧ ¬ e.1.toList <+: s.toList := by decide
    have hnot : ∀ s ∈ openings ++ unaryOp.map Prod.fst, ¬ s.toList <+: skip t := by
      intro s hs hp
      rw [ht, Value.chars] at hp
      rcases List.prefix_or_prefix_of_prefix hp (List.prefix_append _ _) with hp | hp
      · exact (hopenings _ (hboolean b) s hs).1 hp
      · exact (hopenings _ (hboolean b) s hs).2 hp
    rw [Value.chars] at ht
    refine expression_of_unary hr.noOperator ?_
    exact unaryExpr_of_literal (fun s hs => hnot s (List.mem_append_left _ hs))
      (fun e he => hnot e.1 (List.mem_append_right _ (List.mem_map_of_mem he)))
      (literal_boolean (hboolean b) ht)
  | integer i =>
    obtain ⟨m, rfl⟩ : ∃ m, n = m + 1 := ⟨n - 1, by omega⟩
    exact reads_integer (Value.inRange_node.mp hx).1
  | duration d =>
    obtain ⟨m, rfl⟩ : ∃ m, n = m + 1 := ⟨n - 1, by omega⟩
    exact reads_duration (Value.inRange_node.mp hx).1.1 (Value.inRange_node.mp hx).1.2
  | string s hs =>
    obtain ⟨m, rfl⟩ : ∃ m, n = m + 1 := ⟨n - 1, by omega⟩
    intro t r hr ht
    have ht : skip t = '\'' :: (s.toList ++ '\'' :: r) := by
      rw [ht, Value.chars, List.cons_append, List.append_assoc, List.singleton_append]
    have hall : ∀ w ∈ openings ++ unaryOp.map Prod.fst, w.toList.head?.any fun c => c ≠ '\'' := by
      decide
    have hnot : ∀ w ∈ openings ++ unaryOp.map Prod.fst, ¬ w.toList <+: skip t := fun w hw =>
      not_prefix_of_head (hall w hw) fun c hc => by
        rw [ht] at hc
        cases hc
        rfl
    refine expression_of_unary hr.noOperator ?_
    exact unaryExpr_of_literal (fun s hs => hnot s (List.mem_append_left _ hs))
      (fun e he => hnot e.1 (List.mem_append_right _ (List.mem_map_of_mem he)))
      (literal_string hs ht)
  | @array ts h ih =>
    obtain ⟨m, rfl⟩ : ∃ m, n = m + 1 := ⟨n - 1, by omega⟩
    have hn := Nat.le_of_lt_succ hn
    have hts := (Value.inRange_node.mp hx).2
    exact reads_array h (fun t ht => ih t ht (hts t ht) ((fuel_array hn).2 t ht)) hn
  | @dictionary keys ts hlen hk h ih =>
    obtain ⟨m, rfl⟩ : ∃ m, n = m + 1 := ⟨n - 1, by omega⟩
    have hn := Nat.le_of_lt_succ hn
    have hts := (Value.inRange_node.mp hx).2
    refine reads_dictionary hk h (fun t ht => ?_) hn
    obtain ⟨entry, he, rfl⟩ := exists_entry hlen ht
    exact ih _ ht (hts _ ht) ((fuel_dictionary hn).2 entry he).2

/-- **Of any other value something is left, or it is not read at all.** -/
theorem strays_chars {x : Value} (h : x.HasSyntax) (hx : ¬ x.InRange) (hn : x.chars.length < n) :
    Strays (expression reals n) x.chars := by
  induction h generalizing n with
  | boolean b => exact absurd (Value.inRange_leaf (.boolean b) trivial) hx
  | string s hs => exact absurd (Value.inRange_leaf (.string s) trivial) hx
  | integer i =>
    obtain ⟨m, rfl⟩ : ∃ m, n = m + 1 := ⟨n - 1, by omega⟩
    exact strays_integer fun hi => hx (Value.inRange_leaf _ hi)
  | duration d =>
    obtain ⟨m, rfl⟩ : ∃ m, n = m + 1 := ⟨n - 1, by omega⟩
    exact strays_duration fun hd => hx (Value.inRange_leaf _ hd)
  | @array ts h ih =>
    obtain ⟨m, rfl⟩ : ∃ m, n = m + 1 := ⟨n - 1, by omega⟩
    have hn := (fuel_array (Nat.le_of_lt_succ hn)).2
    have hbad : ∃ t ∈ ts, ¬ t.InRange := by
      by_contra hall
      push Not at hall
      exact hx (Value.inRange_node.mpr ⟨trivial, hall⟩)
    exact strays_array h (fun t ht hgood => reads_chars (h t ht) hgood (hn t ht))
      (fun t ht hnot => ih t ht hnot (hn t ht)) hbad
  | @dictionary keys ts hlen hk h ih =>
    obtain ⟨m, rfl⟩ : ∃ m, n = m + 1 := ⟨n - 1, by omega⟩
    have hn := Nat.le_of_lt_succ hn
    have hfuel : ∀ t ∈ ts, t.chars.length < m := fun t ht => by
      obtain ⟨entry, he, rfl⟩ := exists_entry hlen ht
      exact ((fuel_dictionary hn).2 entry he).2
    have hbad : ∃ entry ∈ keys.zip ts, ¬ entry.2.InRange := by
      by_contra hall
      push Not at hall
      refine hx (Value.inRange_node.mpr ⟨trivial, fun t ht => ?_⟩)
      obtain ⟨entry, he, rfl⟩ := exists_entry hlen ht
      exact hall entry he
    exact strays_dictionary hk h (fun t ht hgood => reads_chars (h t ht) hgood (hfuel t ht))
      (fun t ht hnot => ih t ht hnot (hfuel t ht)) hbad hn

end Grammar

end EzCpp.Flow
