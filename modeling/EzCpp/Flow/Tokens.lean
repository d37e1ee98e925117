import EzCpp.Flow.Grammar
import Mathlib.Algebra.Group.Int.Defs
import Mathlib.Data.List.TakeWhile

/-!
# How tokens are read

What the rules for tokens do with a text that begins with a token, after blanks. A text is often
given as its tokens with a blank before each (`spaced`); then a token is read exactly when it is the
first one, because no token of the grammar goes on over a blank.
-/

namespace EzCpp.Flow.Grammar

open EzCpp.Lib Ast Parser

variable {α : Type} {t r : List Char} {w : String} {toks : List String}

/-! ## Blanks -/

/-- No blank and no comment begins here. -/
def Solid (t : List Char) : Prop := skipper t = none

theorem skip_of_solid (h : Solid t) : skip t = t := by
  cases t with
  | nil => rfl
  | cons c t =>
    rw [skip, List.length_cons, skipFrom, h]

@[simp] theorem skip_nil : skip [] = [] := rfl

@[simp] theorem skip_blank (t : List Char) : skip (' ' :: t) = skip t := by
  show skipFrom t.length t = skip t
  rfl

theorem solid_cons {c : Char} (h : isSpace c = false)
    (hc : c = '/' → ∀ d r, t = d :: r → d ≠ '/' ∧ d ≠ '*') : Solid (c :: t) := by
  show (if isSpace c = true then some t else comment (c :: t)) = none
  rw [h, if_neg Bool.false_ne_true]
  unfold comment
  split
  next t' heq =>
    cases heq
    exact absurd rfl (hc rfl _ _ rfl).1
  next =>
    show blockComment (2 * (c :: t).length + 1 + 1) (c :: t) = none
    unfold blockComment
    split
    next n t' hn heq =>
      cases heq
      exact absurd rfl (hc rfl _ _ rfl).2
    next => rfl

/-- The characters that no blank and no comment begins with. -/
theorem solid_of_ne {c : Char} (h : isSpace c = false) (hc : c ≠ '/') : Solid (c :: t) :=
  solid_cons h fun heq => absurd heq hc

theorem ne_of_isAlphanum {c d : Char} (h : c.isAlphanum = true) (hd : d.isAlphanum = false) :
    c ≠ d := by
  rintro rfl
  rw [h] at hd
  cases hd

theorem isAlpha_eq (c : Char) : c.isAlpha =
    (decide (c.val ≥ 65 ∧ c.val ≤ 90) || (decide (c.val ≥ 97) && decide (c.val ≤ 122))) := rfl

/-- A letter, a digit or an underscore is no blank. -/
theorem isSpace_of_continues {c : Char} (h : continuesIdentifier c = true) : isSpace c = false := by
  simp only [continuesIdentifier, Char.isAlphanum, isAlpha_eq, Char.isDigit, Bool.or_eq_true,
    Bool.and_eq_true, decide_eq_true_eq, isSpace, Bool.or_eq_false_iff, Bool.and_eq_false_iff, decide_eq_false_iff_not, Char.ext_iff,
    Char.le_def, UInt32.le_iff_toNat_le, ← UInt32.toNat_inj] at h ⊢
  simp at h ⊢
  omega

theorem continues_of_starts {c : Char} (h : startsIdentifier c = true) :
    continuesIdentifier c = true := by
  simp only [startsIdentifier, continuesIdentifier, Char.isAlphanum, Bool.or_eq_true] at h ⊢
  exact h.imp_left .inl

theorem span_append {p : Char → Bool} {l : List Char} (hl : ∀ c ∈ l, p c = true)
    (hr : ∀ c ∈ r.head?, p c = false) :
    (l ++ r).takeWhile p = l ∧ (l ++ r).dropWhile p = r := by
  rw [List.takeWhile_append_of_pos hl, List.dropWhile_append_of_pos hl]
  cases r with
  | nil => exact ⟨List.append_nil _, rfl⟩
  | cons c r =>
    rw [List.takeWhile_cons, List.dropWhile_cons, hr c rfl]
    exact ⟨List.append_nil _, rfl⟩

/-! ## Words and symbols -/

theorem lit_ok (h : skip t = w.toList ++ r) : lit w t = .ok () r := text_ok h

theorem lit_fail (h : ¬ w.toList <+: skip t) : lit w t = .fail := text_fail h

theorem symbol_ok {table : List (String × α)} {a : α} (hm : (w, a) ∈ table)
    (hu : ∀ e ∈ table, e.1 = w → e.2 = a) (h : skip t = w.toList ++ r)
    (hmax : ∀ e ∈ table, e.1.toList <+: skip t → e.1.toList <+: w.toList) :
    symbol table t = .ok a r := symbols_ok hm hu h hmax

theorem symbol_fail {table : List (String × α)} (h : ∀ e ∈ table, ¬ e.1.toList <+: skip t) :
    symbol table t = .fail := symbols_fail h

/-! ## Identifiers -/

/-- How identifiers are spelled. -/
def Spelled (w : Identifier) : Prop :=
  ∃ c cs, w.toList = c :: cs ∧ startsIdentifier c = true ∧ ∀ d ∈ cs, continuesIdentifier d = true

/-- No identifier goes on here. -/
def Ends (r : List Char) : Prop := ∀ c ∈ r.head?, continuesIdentifier c = false

theorem identifierBase_ok (hw : Spelled w) (hr : Ends r) :
    identifierBase (w.toList ++ r) = .ok w r := by
  obtain ⟨c, cs, hw, hc, hcs⟩ := hw
  obtain ⟨htake, hdrop⟩ := span_append hcs hr
  rw [hw, List.cons_append, identifierBase, if_pos hc, htake, hdrop, ← hw, String.ofList_toList]

theorem identifierBase_fail (h : ∀ c ∈ t.head?, startsIdentifier c = false) :
    identifierBase t = .fail := by
  cases t with
  | nil => rfl
  | cons c t => rw [identifierBase, h c rfl, if_neg Bool.false_ne_true]

theorem identifierBase_ne_abort (t : List Char) : identifierBase t ≠ .abort := by
  unfold identifierBase
  split
  · exact nofun
  · split <;> exact nofun

theorem ends_dropWhile (t : List Char) : Ends (t.dropWhile continuesIdentifier) := by
  intro c hc
  have h := List.head?_dropWhile_not continuesIdentifier t
  rw [Option.mem_def.mp hc] at h
  simpa using h

theorem of_identifierBase_ok (h : identifierBase t = .ok w r) :
    t = w.toList ++ r ∧ Spelled w ∧ Ends r := by
  cases t with
  | nil => cases h
  | cons c t =>
    by_cases hc : startsIdentifier c = true
    · rw [identifierBase, if_pos hc] at h
      cases h
      refine ⟨?_, ⟨c, _, String.toList_ofList, hc, fun d => List.mem_takeWhile_imp⟩,
        ends_dropWhile t⟩
      rw [String.toList_ofList, List.cons_append, List.takeWhile_append_dropWhile]
    · rw [identifierBase, if_neg hc] at h
      cases h

/-- No keyword begins here. -/
def Unreserved (t : List Char) : Prop := ∀ kw ∈ keywords, ¬ kw.toList <+: t

/-- A word that begins with none of letters alone goes on with none either. -/
theorem not_prefix_append {s l : List Char} (hs : ∀ c ∈ s, continuesIdentifier c = true)
    (hr : Ends r) (h : ¬ s <+: l) : ¬ s <+: l ++ r := fun hp =>
  h (prefix_of_prefix_append hp fun c hc hm => by simpa [hr c hc] using hs c hm)

/-- A word goes by its first letter. -/
theorem not_prefix_of_head {p : Char → Bool} {s : List Char} (hs : s.head?.any p = true)
    (ht : ∀ c ∈ t.head?, p c = false) : ¬ s <+: t := by
  rintro ⟨r, rfl⟩
  cases s with
  | nil => cases hs
  | cons c s =>
    have hc : p c = true := by simpa using hs
    rw [ht c rfl] at hc
    cases hc

theorem unreserved_append {l : List Char} (h : Unreserved l) (hr : Ends r) :
    Unreserved (l ++ r) := fun kw hkw =>
  have hall : ∀ kw ∈ keywords, ∀ c ∈ kw.toList, continuesIdentifier c = true := by decide
  not_prefix_append (hall kw hkw) hr (h kw hkw)

theorem reserved_fail (h : Unreserved (skip t)) : reserved t = .fail := by
  have hs : symbols keyword (skip t) = .fail := symbols_fail fun e he => by
    obtain ⟨kw, hkw, rfl⟩ := List.mem_map.mp he
    exact h kw hkw
  exact bind_fail hs

/-- Nothing is reserved that no letter begins. -/
theorem unreserved_of_head (h : ∀ c ∈ t.head?, startsIdentifier c = false) : Unreserved t := by
  have hall : ∀ kw ∈ keywords, kw.toList.head?.any startsIdentifier = true := by decide
  exact fun kw hkw => not_prefix_of_head (hall kw hkw) h

theorem identifier_ok (h : skip t = w.toList ++ r) (hw : Spelled w) (hk : Unreserved w.toList)
    (hr : Ends r) : identifier t = .ok w r := by
  have hres : reserved t = .fail := reserved_fail (h ▸ unreserved_append hk hr)
  have hnot : notAhead reserved t = .ok () t := by rw [notAhead, hres]
  refine (bind_ok hnot).trans ?_
  show identifierBase (skip t) = _
  rw [h, identifierBase_ok hw hr]

theorem identifier_fail (h : ∀ c ∈ (skip t).head?, startsIdentifier c = false) :
    identifier t = .fail := by
  have hnot : notAhead reserved t = .ok () t := by
    rw [notAhead, reserved_fail (unreserved_of_head h)]
  exact (bind_ok hnot).trans (identifierBase_fail h)

theorem identifier_congr {t' : List Char} (h : skip t = skip t') : identifier t = identifier t' := by
  have hreserved : reserved t = reserved t' := by
    show (do symbols keyword; notAhead identifierBase : Parser Unit) (skip t) =
      (do symbols keyword; notAhead identifierBase : Parser Unit) (skip t')
    rw [h]
  cases hr : reserved t' with
  | ok a r =>
    rw [hr] at hreserved
    exact (bind_fail (by rw [notAhead, hreserved])).trans (bind_fail (by rw [notAhead, hr])).symm
  | fail =>
    rw [hr] at hreserved
    have hnot : notAhead reserved t = .ok () t := by rw [notAhead, hreserved]
    have hnot' : notAhead reserved t' = .ok () t' := by rw [notAhead, hr]
    refine (bind_ok hnot).trans (Eq.trans ?_ (bind_ok hnot').symm)
    show identifierBase (skip t) = identifierBase (skip t')
    rw [h]
  | abort =>
    rw [hr] at hreserved
    exact (bind_abort (by rw [notAhead, hreserved])).trans (bind_abort (by rw [notAhead, hr])).symm

theorem of_identifier_ok (h : identifier t = .ok w r) :
    skip t = w.toList ++ r ∧ Spelled w ∧ Ends r ∧ reserved t = .fail := by
  obtain ⟨_, u, hu, hb⟩ := of_bind_ok h
  obtain ⟨hres, rfl⟩ := of_notAhead_ok hu
  obtain ⟨ht, hw, hr⟩ := of_identifierBase_ok (t := skip u) hb
  exact ⟨ht, hw, hr, hres⟩

theorem not_startsIdentifier_of_ends (hr : Ends r) :
    ∀ c ∈ r.head?, startsIdentifier c = false := fun c hc => by
  have h := hr c hc
  by_contra hs
  rw [continues_of_starts (by simpa using hs)] at h
  cases h

/-! ## Literals -/

theorem quoted_ok {quote : Char} {s : String} (hs : quote ∉ s.toList) :
    quoted quote (quote :: (s.toList ++ quote :: r)) = .ok s r := by
  have hne : ∀ c ∈ s.toList, decide (c ≠ quote) = true := fun c hc =>
    decide_eq_true fun heq => hs (heq ▸ hc)
  obtain ⟨htake, hdrop⟩ := span_append (r := quote :: r) hne (by simp)
  rw [quoted, if_pos rfl, hdrop, htake, String.ofList_toList]

theorem quoted_fail {quote : Char} (h : ∀ c ∈ t.head?, c ≠ quote) : quoted quote t = .fail := by
  cases t with
  | nil => rfl
  | cons c t => rw [quoted, if_neg (h c rfl)]

theorem toList_toString (n : Nat) : (toString n).toList = Nat.toDigits 10 n := Nat.toList_repr

theorem isDigit_of_mem_toString {n : Nat} : ∀ c ∈ (toString n).toList, c.isDigit = true := by
  rw [toList_toString]
  exact fun c => Nat.isDigit_of_mem_toDigits (by decide) (by decide)

theorem natOf_toString (n : Nat) : natOf (toString n).toList = n := by
  rw [toList_toString]
  exact Nat.ofDigitChars_toDigits (by decide) (by decide)

/-- No digit begins here. -/
def NoDigit (r : List Char) : Prop := ∀ c ∈ r.head?, c.isDigit = false

theorem takeWhile_digits {n : Nat} (hr : NoDigit r) :
    ((toString n).toList ++ r).takeWhile Char.isDigit = (toString n).toList :=
  (span_append isDigit_of_mem_toString hr).1

theorem dropWhile_digits {n : Nat} (hr : NoDigit r) :
    ((toString n).toList ++ r).dropWhile Char.isDigit = r :=
  (span_append isDigit_of_mem_toString hr).2

theorem toString_ne_nil (n : Nat) : (toString n).toList ≠ [] := by
  rw [toList_toString]
  exact Nat.toDigits_ne_nil

theorem digits_ok {bound n : Nat} (hn : n ≤ bound) (hr : NoDigit r) :
    digits bound ((toString n).toList ++ r) = .ok n r := by
  have hc : ¬ ((toString n).toList = [] ∨ bound < n) :=
    not_or.mpr ⟨toString_ne_nil n, Nat.not_lt.mpr hn⟩
  simp only [digits, takeWhile_digits hr, dropWhile_digits hr, natOf_toString, if_neg hc]

theorem digits_out_of_range {bound n : Nat} (hn : bound < n) (hr : NoDigit r) :
    digits bound ((toString n).toList ++ r) = .fail := by
  have hc : (toString n).toList = [] ∨ bound < n := .inr hn
  simp only [digits, takeWhile_digits hr, natOf_toString, if_pos hc]

theorem takeWhile_digits_nil (h : NoDigit t) : t.takeWhile Char.isDigit = [] :=
  (span_append (l := []) nofun h).1

theorem digits_fail {bound : Nat} (h : NoDigit t) : digits bound t = .fail := by
  have hc : t.takeWhile Char.isDigit = [] ∨ bound < natOf (t.takeWhile Char.isDigit) :=
    .inl (takeWhile_digits_nil h)
  simp only [digits, if_pos hc]

/-- No sign begins here. -/
def Unsigned (t : List Char) : Prop := ∀ c ∈ t.head?, c ≠ '+' ∧ c ≠ '-'

section Reals

variable {reals : Reals}

theorem real_eq (h : Unsigned (skip t)) : real reals t = unsignedReal reals (skip t) := by
  unfold real lexeme
  beta_reduce
  split
  next u heq => exact absurd rfl (h '-' (by simp [heq])).2
  next u heq => exact absurd rfl (h '+' (by simp [heq])).1
  next => rfl

theorem integer_eq (h : Unsigned (skip t)) :
    integer t = (do let i ← digits (2 ^ 31 - 1); return Int64.ofInt i) (skip t) := by
  unfold integer lexeme
  beta_reduce
  split
  next u heq => exact absurd rfl (h '-' (by simp [heq])).2
  next u heq => exact absurd rfl (h '+' (by simp [heq])).1
  next => rfl

/-- What `1`, but not `1.` and `1e5`, can be followed by. -/
def NoFraction (r : List Char) : Prop := ∀ c ∈ r.head?, c ≠ '.' ∧ c ≠ 'e' ∧ c ≠ 'E'

theorem exponentLetter_eq_none (h : NoFraction r) : exponentLetter r = none := by
  unfold exponentLetter
  split
  next => exact absurd rfl (h 'e' rfl).2.1
  next => exact absurd rfl (h 'E' rfl).2.2
  next => rfl

theorem numeral_eq_none (hd : NoFraction (t.dropWhile Char.isDigit)) : numeral t = none := by
  unfold numeral
  split
  next u heq => exact absurd rfl (hd '.' (by simp [heq])).1
  next => simp [exponentLetter_eq_none hd]

theorem unsignedReal_digits {n : Nat} (hr : NoDigit r) (hf : NoFraction r) :
    unsignedReal reals ((toString n).toList ++ r) = .fail := by
  have hn : numeral ((toString n).toList ++ r) = none :=
    numeral_eq_none (by rwa [dropWhile_digits hr])
  simp only [unsignedReal, takeWhile_digits hr, toString_ne_nil, false_and, if_false, hn]

theorem unsignedReal_fail (hd : NoDigit t) (hp : ∀ c ∈ t.head?, c ≠ '.') (hn : nan t = none)
    (hi : infinity t = none) : unsignedReal reals t = .fail := by
  obtain ⟨htake, hdrop⟩ := span_append (l := []) nofun hd
  have hnum : numeral t = none := by
    rw [List.nil_append] at htake hdrop
    simp only [numeral, htake, hdrop]
    split
    next u => exact absurd rfl (hp '.' rfl)
    next => rfl
  simp [unsignedReal, hn, hi, hnum]

/-! `literal` on each kind of literal. -/

theorem string_fail (h : ∀ c ∈ (skip t).head?, c ≠ '\'' ∧ c ≠ '"') : string t = .fail :=
  (firstOf_fail (p := lexeme (quoted '\'')) (quoted_fail fun c hc => (h c hc).1)).trans
    (firstOf_fail (p := lexeme (quoted '"')) (quoted_fail fun c hc => (h c hc).2))

theorem literal_string {s : String} (hs : '\'' ∉ s.toList)
    (h : skip t = '\'' :: (s.toList ++ '\'' :: r)) : literal reals t = .ok (.string s) r := by
  have hq : quoted '\'' (skip t) = .ok s r := h ▸ quoted_ok hs
  exact firstOf_ok (bind_ok (firstOf_ok (p := lexeme (quoted '\'')) hq))

theorem literal_boolean {b : Bool} (hb : (w, b) ∈ boolean) (h : skip t = w.toList ++ r) :
    literal reals t = .ok (.boolean b) r := by
  have huniq : ∀ e ∈ boolean, ∀ e' ∈ boolean, e.1 = e'.1 → e.2 = e'.2 := by decide
  have hpre : ∀ e ∈ boolean, ∀ e' ∈ boolean,
      e.1.toList <+: e'.1.toList ∨ e'.1.toList <+: e.1.toList → e.1.toList <+: e'.1.toList := by
    decide
  have hhead : ∀ e ∈ boolean, ∃ c ∈ ['t', 'f'], e.1.toList.head? = some c := by decide
  have hs : string t = .fail := string_fail fun c hc => by
    obtain ⟨d, hd, hw⟩ := hhead _ hb
    rw [h, List.head?_append, hw] at hc
    have hne : ∀ d ∈ ['t', 'f'], d ≠ '\'' ∧ d ≠ '"' := by decide
    cases hc
    exact hne _ hd
  have hsym : symbol boolean t = .ok b r :=
    symbol_ok hb (fun e he heq => huniq e he _ hb heq) h fun e he hp =>
      hpre e he _ hb (List.prefix_or_prefix_of_prefix (h ▸ hp) (List.prefix_append _ _))
  exact (firstOf_fail (bind_fail hs)).trans (firstOf_ok (bind_ok hsym))

/-- The literals that begin with a digit. -/
theorem literal_digits {n : Nat} (h : skip t = (toString n).toList ++ r) :
    literal reals t = firstOf [
      do let d ← lexeme duration; return .duration d,
      do let r ← real reals; return .real r,
      do let i ← integer; return .integer i] t := by
  have hhead : ∀ c ∈ (skip t).head?, c.isDigit = true := by
    intro c hc
    cases hn : (toString n).toList with
    | nil => exact absurd hn (toString_ne_nil n)
    | cons d ds =>
      rw [h, hn] at hc
      cases hc
      exact isDigit_of_mem_toString c (hn ▸ List.mem_cons_self)
  have hs : string t = .fail := string_fail fun c hc => by
    have halnum : c.isAlphanum = true := by simp [Char.isAlphanum, hhead c hc]
    exact ⟨ne_of_isAlphanum halnum (by decide), ne_of_isAlphanum halnum (by decide)⟩
  have hb : symbol boolean t = .fail := symbol_fail fun e he => by
    have hnd : ∀ e ∈ boolean, e.1.toList.head?.any (fun c => !c.isDigit) = true := by decide
    exact not_prefix_of_head (hnd e he) fun c hc => by rw [hhead c hc]; rfl
  exact (firstOf_fail (bind_fail hs)).trans (firstOf_fail (bind_fail hb))

theorem unsigned_digits (n : Nat) : Unsigned ((toString n).toList ++ r) := by
  intro c hc
  rw [List.head?_append_of_ne_nil _ (toString_ne_nil n)] at hc
  have halnum : c.isAlphanum = true := by
    simp [Char.isAlphanum, isDigit_of_mem_toString c (List.mem_of_mem_head? hc)]
  exact ⟨ne_of_isAlphanum halnum (by decide), ne_of_isAlphanum halnum (by decide)⟩

/-- The unit decides what follows it, since no unit begins another. -/
theorem literal_duration {n : Nat} {unit : DurationUnit} (hn : n < 2 ^ 32)
    (hw : (w, unit) ∈ durationUnit) (h : skip t = (toString n).toList ++ (w.toList ++ r)) :
    literal reals t = .ok (.duration ⟨.ofNat n, unit⟩) r := by
  have huniq : ∀ e ∈ durationUnit, ∀ e' ∈ durationUnit, e.1 = e'.1 → e.2 = e'.2 := by decide
  have hpre : ∀ e ∈ durationUnit, ∀ e' ∈ durationUnit,
      e.1.toList <+: e'.1.toList ∨ e'.1.toList <+: e.1.toList → e.1.toList <+: e'.1.toList := by
    decide
  have hhead : ∀ e ∈ durationUnit, ∃ c ∈ ['m', 's', 'd', 'w'], e.1.toList.head? = some c := by
    decide
  have hr : NoDigit (w.toList ++ r) := fun c hc => by
    obtain ⟨d, hd, hw⟩ := hhead _ hw
    have hnot : ∀ d ∈ ['m', 's', 'd', 'w'], d.isDigit = false := by decide
    rw [List.head?_append, hw] at hc
    cases hc
    exact hnot _ hd
  have huint : uint (skip t) = .ok n (w.toList ++ r) := h ▸ digits_ok (Nat.le_pred_of_lt hn) hr
  have hunit : symbols durationUnit (w.toList ++ r) = .ok unit r :=
    symbols_ok hw (fun e he heq => huniq e he _ hw heq) rfl fun e he hp =>
      hpre e he _ hw (List.prefix_or_prefix_of_prefix hp (List.prefix_append _ _))
  have hd : lexeme duration t = .ok ⟨.ofNat n, unit⟩ r := (bind_ok huint).trans (bind_ok hunit)
  exact (literal_digits h).trans (firstOf_ok (bind_ok hd))

/-- Digits that no unit, no point and no exponent follows. -/
theorem literal_number {n : Nat} (h : skip t = (toString n).toList ++ r)
    (hu : ∀ e ∈ durationUnit, ¬ e.1.toList <+: r) (hr : NoDigit r) (hf : NoFraction r) :
    literal reals t = if n < 2 ^ 31 then .ok (.integer (Int64.ofInt n)) r else .fail := by
  have hs : Unsigned (skip t) := h ▸ unsigned_digits n
  have hd : lexeme duration t = .fail := by
    show duration (skip t) = .fail
    by_cases hn : n ≤ 2 ^ 32 - 1
    · exact (bind_ok (show uint (skip t) = .ok n r from h ▸ digits_ok hn hr)).trans
        (bind_fail (symbols_fail hu))
    · exact bind_fail (show uint (skip t) = .fail from
        h ▸ digits_out_of_range (Nat.lt_of_not_le hn) hr)
  have hreal : real reals t = .fail := by rw [real_eq hs, h, unsignedReal_digits hr hf]
  rw [literal_digits h, firstOf_fail (bind_fail hd), firstOf_fail (bind_fail hreal)]
  by_cases hn : n < 2 ^ 31
  · have hi : integer t = .ok (Int64.ofInt n) r := by
      rw [integer_eq hs, h]
      exact bind_ok (digits_ok (Nat.le_pred_of_lt hn) hr)
    rw [if_pos hn]
    exact firstOf_ok (bind_ok hi)
  · have hi : integer t = .fail := by
      rw [integer_eq hs, h]
      exact bind_fail (digits_out_of_range (by omega) hr)
    rw [if_neg hn]
    exact firstOf_fail (bind_fail hi)

/-- Where none of the literals begins. -/
theorem literal_fail (hq : ∀ c ∈ (skip t).head?, c ≠ '\'' ∧ c ≠ '"' ∧ c ≠ '.')
    (hs : Unsigned (skip t)) (hd : NoDigit (skip t))
    (hb : ∀ e ∈ boolean, ¬ e.1.toList <+: skip t) (hn : nan (skip t) = none)
    (hi : infinity (skip t) = none) : literal reals t = .fail := by
  have hstring : string t = .fail := string_fail fun c hc => ⟨(hq c hc).1, (hq c hc).2.1⟩
  have hboolean : symbol boolean t = .fail := symbol_fail hb
  have hduration : lexeme duration t = .fail :=
    bind_fail (show uint (skip t) = .fail from digits_fail hd)
  have hreal : real reals t = .fail := by
    rw [real_eq hs, unsignedReal_fail hd (fun c hc => (hq c hc).2.2) hn hi]
  have hinteger : integer t = .fail := by
    rw [integer_eq hs]
    exact bind_fail (digits_fail hd)
  rw [literal, firstOf_fail (bind_fail hstring), firstOf_fail (bind_fail hboolean),
    firstOf_fail (bind_fail hduration), firstOf_fail (bind_fail hreal)]
  exact firstOf_fail (bind_fail hinteger)

/-! Words that are no literals. -/

theorem isAlpha_of_toLower {c l : Char} (hl : l.isLower = true) (h : c.toLower = l) :
    c.isAlpha = true := by
  unfold Char.toLower at h
  split at h
  next hc =>
    have hu : c.isUpper = true := by
      exact decide_eq_true hc
    exact Bool.or_eq_true_iff.mpr (.inl hu)
  next => exact Bool.or_eq_true_iff.mpr (.inr (h ▸ hl))

theorem noCase_eq_none {l : Char} {ls : List Char} (hl : l.isLower = true)
    (h : ∀ c ∈ t.head?, c.isAlpha = false) : noCase (l :: ls) t = none := by
  cases t with
  | nil => rfl
  | cons c t =>
    rw [noCase, if_neg fun hc => ?_]
    have hnot := h c rfl
    rw [isAlpha_of_toLower hl hc] at hnot
    cases hnot

theorem isAlpha_of_ends (hr : Ends r) : ∀ c ∈ r.head?, c.isAlpha = false := fun c hc => by
  have h := hr c hc
  simp only [continuesIdentifier, Char.isAlphanum, Bool.or_eq_false_iff] at h
  exact h.1.1

theorem noCase_append {ls l : List Char} (hls : ∀ c ∈ ls, c.isLower = true) (hr : Ends r) :
    noCase ls (l ++ r) = (noCase ls l).map (· ++ r) := by
  induction ls generalizing l with
  | nil => cases l <;> rfl
  | cons d ls ih =>
    cases l with
    | nil => exact noCase_eq_none (hls d List.mem_cons_self) (isAlpha_of_ends hr)
    | cons c l =>
      rw [List.cons_append, noCase, noCase]
      split
      next => exact ih fun e he => hls e (List.mem_cons_of_mem _ he)
      next => rfl

/-- A word that begins like one of the numbers that are spelled with letters. -/
def BeginsReal (w : Identifier) : Prop :=
  (noCase ['n', 'a', 'n'] w.toList).isSome ∨ (noCase ['i', 'n', 'f'] w.toList).isSome

instance (w : Identifier) : Decidable (BeginsReal w) := by
  unfold BeginsReal
  infer_instance

theorem nan_append (h : ¬ BeginsReal w) (hr : Ends r) : nan (w.toList ++ r) = none := by
  have hw : noCase ['n', 'a', 'n'] w.toList = none := by
    by_contra hs
    exact h (.inl (Option.isSome_iff_ne_none.mpr hs))
  rw [nan, noCase_append (by decide) hr, hw]
  rfl

theorem infinity_append (h : ¬ BeginsReal w) (hr : Ends r) : infinity (w.toList ++ r) = none := by
  have hw : noCase ['i', 'n', 'f'] w.toList = none := by
    by_contra hs
    exact h (.inr (Option.isSome_iff_ne_none.mpr hs))
  rw [infinity, noCase_append (by decide) hr, hw]
  rfl

theorem head_of_spelled (hw : Spelled w) : ∀ c ∈ (w.toList ++ r).head?, startsIdentifier c = true := by
  obtain ⟨c, cs, hc, hs, -⟩ := hw
  intro d hd
  rw [hc] at hd
  cases hd
  exact hs

theorem ne_of_starts {c d : Char} (h : startsIdentifier c = true) (hd : startsIdentifier d = false) :
    c ≠ d := by
  rintro rfl
  rw [h] at hd
  cases hd

theorem isDigit_of_starts {c : Char} (h : startsIdentifier c = true) : c.isDigit = false := by
  simp only [startsIdentifier, isAlpha_eq, Char.isDigit, Bool.or_eq_true, Bool.and_eq_true,
    decide_eq_true_eq, Bool.and_eq_false_iff, decide_eq_false_iff_not, Char.ext_iff,
    UInt32.le_iff_toNat_le, ← UInt32.toNat_inj] at h ⊢
  simp at h ⊢
  omega

theorem literal_word_fail (h : skip t = w.toList ++ r) (hw : Spelled w) (hr : Ends r)
    (hb : ∀ e ∈ boolean, ¬ e.1.toList <+: w.toList) (hn : ¬ BeginsReal w) :
    literal reals t = .fail := by
  have hs : ∀ c ∈ (skip t).head?, startsIdentifier c = true := h ▸ head_of_spelled hw
  have hall : ∀ e ∈ boolean, ∀ c ∈ e.1.toList, continuesIdentifier c = true := by decide
  exact literal_fail
    (fun c hc => ⟨ne_of_starts (hs c hc) (by decide), ne_of_starts (hs c hc) (by decide),
      ne_of_starts (hs c hc) (by decide)⟩)
    (fun c hc => ⟨ne_of_starts (hs c hc) (by decide), ne_of_starts (hs c hc) (by decide)⟩)
    (fun c hc => isDigit_of_starts (hs c hc))
    (fun e he => h ▸ not_prefix_append (hall e he) hr (hb e he))
    (h ▸ nan_append hn hr) (h ▸ infinity_append hn hr)

/-! ## Where no literal and no expression begins -/

def beginsLiteral (c : Char) : Bool :=
  startsIdentifier c || c.isDigit || ['\'', '"', '.', '+', '-'].contains c

def beginsExpression (c : Char) : Bool := beginsLiteral c || ['(', '['].contains c

theorem starts_eq_false {c : Char} (h : beginsLiteral c = false) : startsIdentifier c = false := by
  simp only [beginsLiteral, Bool.or_eq_false_iff] at h
  exact h.1.1

theorem literal_head_fail (h : ∀ c ∈ (skip t).head?, beginsLiteral c = false) :
    literal reals t = .fail := by
  have hdigit : NoDigit (skip t) := fun c hc => by
    have h := h c hc
    simp only [beginsLiteral, Bool.or_eq_false_iff] at h
    exact h.1.2
  have hne : ∀ c ∈ (skip t).head?, ∀ d, beginsLiteral d = true → c ≠ d := fun c hc d hd heq => by
    rw [← heq, h c hc] at hd
    cases hd
  have halpha : ∀ c ∈ (skip t).head?, c.isAlpha = false := fun c hc => by
    have h := starts_eq_false (h c hc)
    simp only [startsIdentifier, Bool.or_eq_false_iff] at h
    exact h.1
  have hboolean : ∀ e ∈ boolean, e.1.toList.head?.any beginsLiteral = true := by decide
  exact literal_fail
    (fun c hc => ⟨hne c hc _ (by decide), hne c hc _ (by decide), hne c hc _ (by decide)⟩)
    (fun c hc => ⟨hne c hc _ (by decide), hne c hc _ (by decide)⟩) hdigit
    (fun e he => not_prefix_of_head (hboolean e he) h)
    (by rw [nan, noCase_eq_none (by decide) halpha]; rfl)
    (by rw [infinity, noCase_eq_none (by decide) halpha]; rfl)

section Rules

variable {n : Nat} {expression : Parser Expression}

theorem awaitExpression_fail (h : lit "await" t = .fail) : awaitExpression expression t = .fail :=
  bind_fail h

theorem tryExpression_fail (h : lit "try" t = .fail) : tryExpression expression t = .fail :=
  bind_fail h

theorem identifierPath_fail (h : identifier t = .fail) : identifierPath n t = .fail := bind_fail h

theorem functionCall_fail (h : identifierPath n t = .fail) : functionCall n expression t = .fail :=
  bind_fail h

theorem array_fail (h : lit "[" t = .fail) : array n expression t = .fail := bind_fail h

theorem dictionary_fail (h : lit "(" t = .fail) : dictionary n expression t = .fail := bind_fail h

theorem parenthesised_fail (h : lit "(" t = .fail) : parenthesised expression t = .fail :=
  bind_fail h

/-- No rule for a primary expression but those of arrays, dictionaries and parentheses. -/
theorem primaryExpr_symbol (h : ∀ c ∈ (skip t).head?, beginsLiteral c = false) :
    primaryExpr reals n expression t = firstOf [
      do let elements ← array n expression; return .array elements,
      do let elements ← dictionary n expression; return .dictionary elements,
      do let e ← parenthesised expression; return .expression e] t := by
  have hlit : ∀ w : String, w.toList.head?.any beginsLiteral = true → lit w t = .fail :=
    fun w hw => lit_fail (not_prefix_of_head hw h)
  have hpath : identifierPath n t = .fail :=
    identifierPath_fail (identifier_fail fun c hc => starts_eq_false (h c hc))
  rw [primaryExpr, firstOf_fail (bind_fail (awaitExpression_fail (hlit _ (by decide)))),
    firstOf_fail (bind_fail (tryExpression_fail (hlit _ (by decide)))),
    firstOf_fail (bind_fail (literal_head_fail h)), firstOf_fail (bind_fail (functionCall_fail hpath)),
    firstOf_fail (bind_fail hpath)]

end Rules

theorem expression_fail (n : Nat) (h : ∀ c ∈ (skip t).head?, beginsExpression c = false) :
    expression reals n t = .fail := by
  cases n with
  | zero => rfl
  | succ n =>
    have hl : ∀ c ∈ (skip t).head?, beginsLiteral c = false := fun c hc => by
      have h := h c hc
      simp only [beginsExpression, Bool.or_eq_false_iff] at h
      exact h.1
    have hopen : lit "(" t = .fail :=
      lit_fail (not_prefix_of_head (p := beginsExpression) (by decide) h)
    have harray : lit "[" t = .fail :=
      lit_fail (not_prefix_of_head (p := beginsExpression) (by decide) h)
    have hprimary : primaryExpr reals n (expression reals n) t = .fail := by
      rw [primaryExpr_symbol hl, firstOf_fail (bind_fail (array_fail harray)),
        firstOf_fail (bind_fail (dictionary_fail hopen)),
        firstOf_fail (bind_fail (parenthesised_fail hopen))]
      rfl
    have hop : option (symbol unaryOp) t = .ok none t := option_fail (symbol_fail fun e he => by
      have hall : ∀ e ∈ unaryOp, e.1.toList.head?.any beginsExpression = true := by decide
      exact not_prefix_of_head (hall e he) h)
    have hunary : unaryExpr reals n (expression reals n) t = .fail :=
      (bind_ok hop).trans (bind_fail hprimary)
    exact bind_fail (bind_fail (bind_fail (bind_fail (bind_fail (bind_fail hunary)))))

end Reals

end EzCpp.Flow.Grammar
