import EzCpp.Flow.Tokens
import EzCpp.Flow.Types

/-!
# Formatting

`format_args` writes its placeholders in the notation of `boost::format`, where percent signs of the base
string have a meaning of their own, and feeds all the arguments to it, which throws when it has more than it
asks for. So the text is what it should be where there are no arguments, and otherwise if the base string
has no percent sign and asks for the last argument, and in general only then (`formatArgs_iff`).

`boost::format` is not read here: it is a parameter, of which no more is known than how it reads text,
`%%`, and `%N%`.
-/

namespace EzCpp.Flow

open EzCpp.Lib

namespace Formatting

/-- What a text is read as. -/
inductive Piece
  | literal (c : Char)
  /-- `%%` -/
  | percent
  /-- the `i`-th argument -/
  | directive (i : Nat)
deriving DecidableEq, Repr

namespace Piece

/-- In the notation of `boost::format`. -/
def chars : Piece → List Char
  | .literal c => [c]
  | .percent => ['%', '%']
  | .directive i => '%' :: ((toString i).toList ++ ['%'])

def fill (texts : List String) : Piece → List Char
  | .literal c => [c]
  | .percent => ['%']
  | .directive i => (texts.getD (i - 1) "").toList

/-- A percent sign alone is no literal, and the first argument has the number 1. -/
def Valid : Piece → Prop
  | .literal c => c ≠ '%'
  | .percent => True
  | .directive i => 1 ≤ i

instance : DecidablePred Valid
  | .literal c => inferInstanceAs (Decidable (c ≠ '%'))
  | .percent => inferInstanceAs (Decidable True)
  | .directive i => inferInstanceAs (Decidable (1 ≤ i))

def index : Piece → Nat
  | .directive i => i
  | _ => 0

end Piece

def template (ps : List Piece) : List Char := ps.flatMap Piece.chars

def filled (texts : List String) (ps : List Piece) : String := .ofList (ps.flatMap (Piece.fill texts))

/-- The highest directive. -/
def highest (ps : List Piece) : Nat := (ps.map Piece.index).foldr max 0

/-- **What is known of `boost::format`**: it throws when it is fed more or fewer arguments than the
highest directive. -/
structure Reads (format : String → List String → Option String) : Prop where
  fed : ∀ ps texts, (∀ p ∈ ps, p.Valid) → highest ps = texts.length →
    format (.ofList (template ps)) texts = some (filled texts ps)
  tooMany : ∀ ps texts, (∀ p ∈ ps, p.Valid) → highest ps < texts.length →
    format (.ofList (template ps)) texts = none
  tooFew : ∀ ps texts, (∀ p ∈ ps, p.Valid) → texts.length < highest ps →
    format (.ofList (template ps)) texts = none

/-! ## Placeholders -/

def placeholder (i : Nat) : List Char := '\x7b' :: ((toString i).toList ++ ['\x7d'])

/-- The text is read from left to right, with the placeholders from the one after the `k`-th up to the
`n`-th. -/
inductive Splits (k n : Nat) : List Char → List Piece → Prop
  | nil : Splits k n [] []
  | argument {i : Nat} {t : List Char} {ps : List Piece} (hk : k < i) (hn : i ≤ n)
      (h : Splits k n t ps) : Splits k n (placeholder i ++ t) (.directive i :: ps)
  | literal {c : Char} {t : List Char} {ps : List Piece}
      (hno : ∀ i, k < i → i ≤ n → ¬ placeholder i <+: c :: t) (h : Splits k n t ps) :
      Splits k n (c :: t) (.literal c :: ps)

/-- **What `format_args` is for**: every placeholder is replaced, and everything else is kept. -/
def Right (host : Host) (s : State) (args : CallArguments) (base : String) (texts : List String) :
    Prop :=
  ∃ ps, Splits 0 texts.length base.toList ps ∧
    (formatArgs host args s).exit = .ok (.ok (filled texts ps))

/-- The arguments are a base string and others with these representations. -/
def Given (host : Host) (s : State) (args : CallArguments) (base : String) (texts : List String) :
    Prop :=
  ∃ name a rest, args = (name, .string a) :: rest ∧ s.heap.cell .string a = base ∧
    rest.map (fun arg => representation host s.heap s.heap.depth arg.2) = texts.map some

/-- There are no arguments, or no percent sign and a placeholder for the last one. -/
def Condition (base : String) (n : Nat) : Prop :=
  n = 0 ∨ '%' ∉ base.toList ∧ placeholder n <:+: base.toList

instance (base : String) (n : Nat) : Decidable (Condition base n) :=
  inferInstanceAs (Decidable (_ ∨ _ ∧ _))

/-- What `boost::format` is given has no directives in it that are not known, or is rejected. -/
def Understood (host : Host) (base : String) (n : Nat) : Prop :=
  (∃ ps : List Piece, (∀ p ∈ ps, p.Valid) ∧ toBoostFormat n base = .ofList (template ps)) ∨
    ∀ texts, host.format (toBoostFormat n base) texts = none

/-! ## Reading the placeholders -/

section Splits

variable {k n i j : Nat} {t u l : List Char} {c : Char} {ps qs : List Piece}

theorem digit_of_mem (h : c ∈ (toString i).toList) : c.isDigit = true :=
  Grammar.isDigit_of_mem_toString c h

theorem not_mem_digits (hc : c.isDigit = false) : c ∉ (toString i).toList := fun h =>
  absurd ((digit_of_mem h).symm.trans hc) (by decide)

/-- No placeholder is the beginning of another one. -/
theorem eq_of_isPrefix (h : placeholder i <+: placeholder j ++ t) : i = j := by
  obtain ⟨u, hu⟩ := h
  have hdigits : (toString i).toList ++ '\x7d' :: u = (toString j).toList ++ '\x7d' :: t := by
    simpa [placeholder] using hu
  have hend (r : List Char) : Grammar.NoDigit ('\x7d' :: r) := by
    intro c hc
    cases hc
    decide
  have htake := congrArg (List.takeWhile Char.isDigit) hdigits
  rw [Grammar.takeWhile_digits (hend u), Grammar.takeWhile_digits (hend t)] at htake
  rw [← Grammar.natOf_toString i, htake, Grammar.natOf_toString]

theorem placeholder_ne_nil : placeholder i ≠ [] := List.cons_ne_nil _ _

/-- A placeholder begins with a brace. -/
theorem not_prefix_of_ne (h : c ≠ '\x7b') : ¬ placeholder i <+: c :: t := fun hp =>
  h (List.cons_prefix_cons.mp hp).1.symm

theorem brace_not_mem_tail : '\x7b' ∉ (toString i).toList ++ ['\x7d'] := by
  rw [List.mem_append, not_or]
  exact ⟨not_mem_digits (by decide), by decide⟩

theorem splits_exists (k n : Nat) (t : List Char) : ∃ ps, Splits k n t ps := by
  generalize hlen : t.length = m
  induction m using Nat.strongRecOn generalizing t with
  | ind m ih =>
    by_cases hp : ∃ i, k < i ∧ i ≤ n ∧ placeholder i <+: t
    · obtain ⟨i, hk, hn, u, rfl⟩ := hp
      obtain ⟨ps, hps⟩ := ih u.length (by rw [← hlen]; simp [placeholder]; omega) u rfl
      exact ⟨_, .argument hk hn hps⟩
    · cases t with
      | nil => exact ⟨[], .nil⟩
      | cons c t =>
        obtain ⟨ps, hps⟩ := ih t.length (by rw [← hlen]; exact Nat.lt_succ_self _) t rfl
        exact ⟨_, .literal (fun i hk hn h => hp ⟨i, hk, hn, h⟩) hps⟩

theorem Splits.of_nil (h : Splits k n [] ps) : ps = [] := by
  generalize ht : ([] : List Char) = t at h
  cases h with
  | nil => rfl
  | argument => cases ht
  | literal => cases ht

theorem Splits.of_placeholder (hk : k < i) (hn : i ≤ n) (h : Splits k n (placeholder i ++ t) ps) :
    ∃ qs, ps = .directive i :: qs ∧ Splits k n t qs := by
  generalize hx : placeholder i ++ t = x at h
  cases h with
  | nil => cases hx
  | @argument j u qs _ _ hu =>
    obtain rfl : i = j := eq_of_isPrefix ⟨t, hx⟩
    rw [List.append_cancel_left hx]
    exact ⟨qs, rfl, hu⟩
  | literal hno => exact absurd ⟨t, hx⟩ (hno i hk hn)

theorem Splits.of_literal (hno : ∀ i, k < i → i ≤ n → ¬ placeholder i <+: c :: t)
    (h : Splits k n (c :: t) ps) : ∃ qs, ps = .literal c :: qs ∧ Splits k n t qs := by
  generalize hx : c :: t = x at h
  cases h with
  | nil => cases hx
  | @argument j u qs hk hn _ => exact absurd ⟨u, hx.symm⟩ (hno j hk hn)
  | @literal d u qs _ hu =>
    cases hx
    exact ⟨qs, rfl, hu⟩

/-- There is one way to read a text. -/
theorem Splits.unique (h : Splits k n t ps) (h' : Splits k n t qs) : ps = qs := by
  induction h generalizing qs with
  | nil => exact h'.of_nil.symm
  | argument hk hn _ ih =>
    obtain ⟨rs, rfl, hrs⟩ := h'.of_placeholder hk hn
    rw [ih hrs]
  | literal hno _ ih =>
    obtain ⟨rs, rfl, hrs⟩ := h'.of_literal hno
    rw [ih hrs]

/-- What has no brace in it is read as it is. -/
theorem Splits.of_append (hl : '\x7b' ∉ l) (h : Splits k n (l ++ t) ps) :
    ∃ qs, ps = l.map .literal ++ qs ∧ Splits k n t qs := by
  induction l generalizing ps with
  | nil => exact ⟨ps, rfl, h⟩
  | cons c l ih =>
    rw [List.mem_cons, not_or] at hl
    obtain ⟨rs, rfl, hrs⟩ := h.of_literal fun i _ _ => not_prefix_of_ne (Ne.symm hl.1)
    obtain ⟨qs, rfl, hqs⟩ := ih hl.2 hrs
    exact ⟨qs, rfl, hqs⟩

/-- A placeholder that is not read as one. -/
theorem Splits.of_other (hi : i ≤ k) (h : Splits k n (placeholder i ++ t) ps) :
    ∃ qs, ps = (placeholder i).map .literal ++ qs ∧ Splits k n t qs := by
  have hno (j : Nat) (hk : k < j) (_ : j ≤ n) : ¬ placeholder j <+: placeholder i ++ t := fun hp => by
    have := eq_of_isPrefix hp
    omega
  obtain ⟨rs, rfl, hrs⟩ := Splits.of_literal hno h
  obtain ⟨qs, rfl, hqs⟩ := Splits.of_append brace_not_mem_tail hrs
  exact ⟨qs, rfl, hqs⟩

theorem splits_literals (n : Nat) (t : List Char) : Splits n n t (t.map .literal) := by
  induction t with
  | nil => exact .nil
  | cons c t ih => exact .literal (fun i hk hn => absurd hn (Nat.not_le.mpr hk)) ih

@[simp] theorem template_literals (t : List Char) : template (t.map .literal) = t := by
  simp [template, List.flatMap_map, Piece.chars]

@[simp] theorem template_append : template (ps ++ qs) = template ps ++ template qs :=
  List.flatMap_append

/-- What is found in a template, without a percent sign, was in the text. -/
theorem Splits.prefix_of_template (h : Splits k n t ps) (hl : '%' ∉ l) (hp : l <+: template ps) :
    l <+: t := by
  induction l generalizing t ps with
  | nil => exact List.nil_prefix
  | cons c l ih =>
    rw [List.mem_cons, not_or] at hl
    cases h with
    | nil => cases List.prefix_nil.mp hp
    | argument => exact absurd (List.cons_prefix_cons.mp hp).1.symm hl.1
    | literal _ hrest =>
      obtain ⟨rfl, htail⟩ := List.cons_prefix_cons.mp hp
      exact List.cons_prefix_cons.mpr ⟨rfl, ih hrest hl.2 htail⟩

end Splits

/-! ## Replacing the placeholders -/

section Replacing

variable {k n m i : Nat} {pattern replacement t l : List Char} {c : Char} {ps qs : List Piece}

/-- More steps than characters are enough. -/
theorem replaceAll_fuel (hp : pattern ≠ []) (hm : t.length < m) (hn : t.length < n) :
    replaceAll pattern replacement m t = replaceAll pattern replacement n t := by
  induction m generalizing n t with
  | zero => exact absurd hm (Nat.not_lt_zero _)
  | succ m ih =>
    cases n with
    | zero => exact absurd hn (Nat.not_lt_zero _)
    | succ n =>
      cases t with
      | nil => rfl
      | cons c t =>
        have hm' : t.length < m := Nat.lt_of_succ_lt_succ hm
        have hn' : t.length < n := Nat.lt_of_succ_lt_succ hn
        have hdrop : ((c :: t).drop pattern.length).length ≤ t.length := by
          have := List.length_pos_iff.mpr hp
          rw [List.length_drop, List.length_cons]
          omega
        simp only [replaceAll]
        split
        · rw [ih (hdrop.trans_lt hm') (hdrop.trans_lt hn')]
        · rw [ih hm' hn']

/-- `boost::replace_all` -/
def replaced (pattern replacement t : List Char) : List Char :=
  replaceAll pattern replacement (t.length + 1) t

theorem replaced_cons (h : ¬ pattern <+: c :: t) :
    replaced pattern replacement (c :: t) = c :: replaced pattern replacement t := by
  rw [replaced, replaceAll, if_neg (by rwa [List.isPrefixOf_iff_prefix])]
  rfl

theorem replaced_append (hp : pattern ≠ []) : replaced pattern replacement (pattern ++ t) =
    replacement ++ replaced pattern replacement t := by
  obtain ⟨c, p, rfl⟩ := List.exists_cons_of_ne_nil hp
  have hprefix : (c :: p).isPrefixOf (c :: (p ++ t)) = true :=
    List.isPrefixOf_iff_prefix.mpr ⟨t, rfl⟩
  have hdrop : (c :: (p ++ t)).drop (c :: p).length = t := List.drop_left
  rw [List.cons_append, replaced, replaceAll, if_pos hprefix, hdrop, replaced]
  have hfuel : t.length < (c :: (p ++ t)).length := by
    rw [List.length_cons, List.length_append]
    omega
  rw [replaceAll_fuel hp hfuel (Nat.lt_succ_self _)]

/-- What has no brace in it is kept. -/
theorem replaced_skip (hl : '\x7b' ∉ l) : replaced (placeholder i) replacement (l ++ t) =
    l ++ replaced (placeholder i) replacement t := by
  induction l with
  | nil => rfl
  | cons c l ih =>
    rw [List.mem_cons, not_or] at hl
    rw [List.cons_append, replaced_cons (not_prefix_of_ne (Ne.symm hl.1)), ih hl.2]
    rfl

theorem brace_not_mem_chars : '\x7b' ∉ (Piece.directive i).chars := by
  rw [Piece.chars, List.mem_cons, List.mem_append, not_or, not_or]
  exact ⟨by decide, not_mem_digits (by decide), by decide⟩

theorem percent_not_mem_placeholder : '%' ∉ placeholder i := by
  rw [placeholder, List.mem_cons, List.mem_append, not_or, not_or]
  exact ⟨by decide, not_mem_digits (by decide), by decide⟩

/-- **One turn of the loop**: one placeholder more is written as a directive. -/
theorem replaced_template (hk : k + 1 ≤ n) (h : Splits (k + 1) n t ps) (h' : Splits k n t qs) :
    replaced (placeholder (k + 1)) (Piece.directive (k + 1)).chars (template ps) = template qs := by
  induction h' generalizing ps with
  | nil =>
    rw [h.of_nil]
    rfl
  | @argument i t qs hki hin _ ih =>
    by_cases hi : i = k + 1
    · subst hi
      obtain ⟨rs, rfl, hrs⟩ := h.of_other (Nat.le_refl _)
      rw [template_append, template_literals, replaced_append placeholder_ne_nil, ih hrs]
      rfl
    · obtain ⟨rs, rfl, hrs⟩ := h.of_placeholder (by omega) hin
      show replaced _ _ ((Piece.directive i).chars ++ template rs) = _
      rw [replaced_skip brace_not_mem_chars, ih hrs]
      rfl
  | @literal c t qs hno _ ih =>
    obtain ⟨rs, rfl, hrs⟩ := h.of_literal fun i hki => hno i (Nat.lt_of_succ_lt hki)
    have hplace : ¬ placeholder (k + 1) <+: c :: template rs := fun hp =>
      hno (k + 1) (Nat.lt_succ_self k) hk (h.prefix_of_template percent_not_mem_placeholder hp)
    show replaced _ _ (c :: template rs) = _
    rw [replaced_cons hplace, ih hrs]
    rfl

theorem toBoostFormat_template (hk : k ≤ n) (h : Splits k n t ps) (h' : Splits 0 n t qs) :
    toBoostFormat k (.ofList (template ps)) = .ofList (template qs) := by
  induction k generalizing ps with
  | zero => rw [toBoostFormat, h.unique h']
  | succ k ih =>
    obtain ⟨rs, hrs⟩ := splits_exists k n t
    have hpattern : ("\x7b" ++ toString (k + 1) ++ "\x7d").toList = placeholder (k + 1) := by
      simp [placeholder]
    have hreplacement : ("%" ++ toString (k + 1) ++ "%").toList = (Piece.directive (k + 1)).chars := by
      simp [Piece.chars]
    have hturn := replaced_template hk h hrs
    rw [replaced] at hturn
    simp only [toBoostFormat, hpattern, hreplacement, String.length_ofList, String.toList_ofList, hturn]
    exact ih (Nat.le_of_succ_le hk) hrs

/-- **The base string with its placeholders as directives.** -/
theorem toBoostFormat_eq {base : String} (h : Splits 0 n base.toList ps) :
    toBoostFormat n base = .ofList (template ps) := by
  have hbase := toBoostFormat_template (Nat.le_refl n) (splits_literals n base.toList) h
  rwa [template_literals, String.ofList_toList] at hbase

end Replacing

/-! ## What is asked for -/

section Pieces

variable {k n i m : Nat} {t l : List Char} {ps : List Piece} {p : Piece}

theorem Splits.literal_mem {c : Char} (h : Splits k n t ps) (hp : .literal c ∈ ps) : c ∈ t := by
  induction h with
  | nil => cases hp
  | argument _ _ _ ih =>
    rcases List.mem_cons.mp hp with heq | hp
    · cases heq
    · exact List.mem_append_right _ (ih hp)
  | literal _ _ ih =>
    rcases List.mem_cons.mp hp with heq | hp
    · cases heq
      exact List.mem_cons_self
    · exact List.mem_cons_of_mem _ (ih hp)

/-- There is no percent sign in a placeholder. -/
theorem Splits.percent_mem (h : Splits k n t ps) (ht : '%' ∈ t) : .literal '%' ∈ ps := by
  induction h with
  | nil => cases ht
  | argument _ _ _ ih =>
    have ht := (List.mem_append.mp ht).resolve_left percent_not_mem_placeholder
    exact List.mem_cons_of_mem _ (ih ht)
  | literal _ _ ih =>
    rcases List.mem_cons.mp ht with rfl | ht
    · exact List.mem_cons_self
    · exact List.mem_cons_of_mem _ (ih ht)

theorem Splits.not_percent (h : Splits k n t ps) : .percent ∉ ps := by
  induction h with
  | nil => exact List.not_mem_nil
  | argument _ _ _ ih => exact fun hp => ih ((List.mem_cons.mp hp).resolve_left nofun)
  | literal _ _ ih => exact fun hp => ih ((List.mem_cons.mp hp).resolve_left nofun)

theorem Splits.bounds (h : Splits k n t ps) (hp : .directive i ∈ ps) : k < i ∧ i ≤ n := by
  induction h with
  | nil => cases hp
  | argument hk hn _ ih =>
    rcases List.mem_cons.mp hp with heq | hp
    · cases heq
      exact ⟨hk, hn⟩
    · exact ih hp
  | literal _ _ ih => exact ih ((List.mem_cons.mp hp).resolve_left nofun)

theorem infix_of_append (hl : '\x7b' ∉ l) (h : placeholder i <:+: l ++ t) : placeholder i <:+: t := by
  induction l with
  | nil => exact h
  | cons c l ih =>
    rw [List.mem_cons, not_or] at hl
    rcases List.infix_cons_iff.mp h with hp | h
    · exact absurd hp (not_prefix_of_ne (Ne.symm hl.1))
    · exact ih hl.2 h

/-- A placeholder is read wherever it is. -/
theorem Splits.directive_mem_iff (h : Splits k n t ps) (hk : k < i) (hn : i ≤ n) :
    .directive i ∈ ps ↔ placeholder i <:+: t := by
  induction h with
  | nil =>
    refine iff_of_false List.not_mem_nil fun h => placeholder_ne_nil (List.infix_nil.mp h)
  | @argument j t ps hkj hjn _ ih =>
    rw [List.mem_cons, ih]
    constructor
    · rintro (heq | h)
      · cases heq
        exact (List.prefix_append _ _).isInfix
      · exact h.trans (List.suffix_append _ _).isInfix
    · intro h
      rcases List.infix_cons_iff.mp h with hp | h
      · exact .inl (congrArg Piece.directive (eq_of_isPrefix hp))
      · exact .inr (infix_of_append brace_not_mem_tail h)
  | @literal c t ps hno _ ih =>
    rw [List.mem_cons, ih, List.infix_cons_iff]
    constructor
    · rintro (heq | h)
      · cases heq
      · exact .inr h
    · rintro (hp | h)
      · exact absurd hp (hno i hk hn)
      · exact .inr h

theorem highest_le_iff : highest ps ≤ m ↔ ∀ p ∈ ps, p.index ≤ m := by
  induction ps with
  | nil => simp [highest]
  | cons p ps ih =>
    rw [List.forall_mem_cons, ← ih]
    exact max_le_iff

theorem Splits.highest_le (h : Splits k n t ps) : highest ps ≤ n := by
  refine highest_le_iff.mpr fun p hp => ?_
  cases p with
  | directive i => exact (h.bounds hp).2
  | _ => exact Nat.zero_le n

/-- The last argument is asked for exactly if there is a placeholder for it. -/
theorem Splits.highest_eq_iff (h : Splits 0 n t ps) (hn : 0 < n) :
    highest ps = n ↔ placeholder n <:+: t := by
  rw [← h.directive_mem_iff hn (Nat.le_refl n)]
  constructor
  · intro heq
    by_contra hno
    have hlt : highest ps ≤ n - 1 := by
      refine highest_le_iff.mpr fun p hp => ?_
      cases p with
      | directive i =>
        have hne : i ≠ n := fun he => hno (he ▸ hp)
        have := (h.bounds hp).2
        show i ≤ n - 1
        omega
      | _ => exact Nat.zero_le _
    omega
  · exact fun hp => Nat.le_antisymm h.highest_le (highest_le_iff.mp (Nat.le_refl _) _ hp)

/-- Without a percent sign of its own, a text is read by `boost::format` as it is meant. -/
theorem Splits.valid (h : Splits 0 n t ps) (ht : '%' ∉ t) : ∀ p ∈ ps, p.Valid := by
  intro p hp
  cases p with
  | literal c =>
    intro hc
    exact ht (hc ▸ h.literal_mem hp)
  | percent => trivial
  | directive i => exact (h.bounds hp).1

end Pieces

/-! ## Counting -/

section Counting

variable {n i : Nat} {ps : List Piece} {c : Char} {texts : List String} {p : Piece}

def Piece.isDirective : Piece → Bool
  | .directive _ => true
  | _ => false

theorem template_cons : template (p :: ps) = p.chars ++ template ps := List.flatMap_cons

theorem count_digits (hc : c.isDigit = false) : (Nat.toDigits 10 i).count c = 0 := by
  rw [← Grammar.toList_toString]
  exact List.count_eq_zero.mpr (not_mem_digits hc)

/-- How often a character comes up, where it does so `a` times for `%%` and `b` times for each argument. -/
theorem count_pieces {f : Piece → List Char} {a b : Nat} (hliteral : ∀ c, f (.literal c) = [c])
    (hpercent : (f .percent).count c = a)
    (hdirective : ∀ i, .directive i ∈ ps → (f (.directive i)).count c = b) :
    (ps.flatMap f).count c = ps.count (.literal c) + a * ps.count .percent +
      b * ps.countP Piece.isDirective := by
  induction ps with
  | nil => rfl
  | cons p ps ih =>
    rw [List.flatMap_cons, List.count_append, ih fun i hi => hdirective i (List.mem_cons_of_mem _ hi),
      List.count_cons, List.count_cons, List.countP_cons]
    cases p with
    | literal d =>
      rw [hliteral, List.count_singleton]
      simp [Piece.isDirective]
      omega
    | percent =>
      rw [hpercent]
      simp [Piece.isDirective, Nat.mul_add]
      omega
    | directive i =>
      rw [hdirective i List.mem_cons_self]
      simp [Piece.isDirective, Nat.mul_add]
      omega

theorem count_percent_template (ps : List Piece) : (template ps).count '%' =
    ps.count (.literal '%') + 2 * ps.count .percent + 2 * ps.countP Piece.isDirective :=
  count_pieces (fun _ => rfl) rfl fun i _ => by simp [Piece.chars, count_digits]

theorem count_t_template (ps : List Piece) :
    (template ps).count 't' = ps.count (.literal 't') := by
  have hcount : (template ps).count 't' =
      ps.count (.literal 't') + 0 * ps.count .percent + 0 * ps.countP Piece.isDirective :=
    count_pieces (fun _ => rfl) rfl fun i _ => by simp [Piece.chars, count_digits]
  omega

/-- Every argument is `true`. -/
def truths (n : Nat) : List String := List.replicate n "true"

theorem fill_truths (h : 1 ≤ i) (hn : i ≤ n) :
    (Piece.directive i).fill (truths n) = ['t', 'r', 'u', 'e'] := by
  have hlt : i - 1 < n := by omega
  rw [Piece.fill, truths, List.getD_eq_getElem?_getD, List.getElem?_replicate_of_lt hlt]
  rfl

/-- The count in `true` is the one for each argument. -/
theorem count_filled (h : ∀ i, .directive i ∈ ps → 1 ≤ i ∧ i ≤ n) (c : Char) :
    (filled (truths n) ps).toList.count c = ps.count (.literal c) + ['%'].count c * ps.count .percent +
      ['t', 'r', 'u', 'e'].count c * ps.countP Piece.isDirective := by
  rw [filled, String.toList_ofList]
  exact count_pieces (fun _ => rfl) rfl fun i hi => by rw [fill_truths (h i hi).1 (h i hi).2]

theorem count_percent_filled (h : ∀ i, .directive i ∈ ps → 1 ≤ i ∧ i ≤ n) :
    (filled (truths n) ps).toList.count '%' = ps.count (.literal '%') + ps.count .percent := by
  simp [count_filled h]

theorem count_t_filled (h : ∀ i, .directive i ∈ ps → 1 ≤ i ∧ i ≤ n) :
    (filled (truths n) ps).toList.count 't' =
      ps.count (.literal 't') + ps.countP Piece.isDirective := by
  simp [count_filled h]

/-- If a text, with its own percent signs, is read otherwise but comes to the same, it has none. -/
theorem no_percent {qs : List Piece} (hps : .percent ∉ ps) (hqs : .literal '%' ∉ qs)
    (hpi : ∀ i, .directive i ∈ ps → 1 ≤ i ∧ i ≤ n) (hqi : ∀ i, .directive i ∈ qs → 1 ≤ i ∧ i ≤ n)
    (htemplate : template ps = template qs) (hfilled : filled (truths n) ps = filled (truths n) qs) :
    .literal '%' ∉ ps := by
  have hpercents := congrArg (List.count '%') htemplate
  have hts := congrArg (List.count 't') htemplate
  have hpercents' := congrArg (fun t : String => t.toList.count '%') hfilled
  have hts' := congrArg (fun t : String => t.toList.count 't') hfilled
  simp only [count_percent_template, count_t_template, count_percent_filled hpi,
    count_percent_filled hqi, count_t_filled hpi, count_t_filled hqi, List.count_eq_zero.mpr hps,
    List.count_eq_zero.mpr hqs] at hpercents hts hpercents' hts'
  refine List.count_eq_zero.mp ?_
  omega

end Counting

/-! ## The law -/

section Law

variable {host : Host} {s : State} {args : CallArguments} {base : String} {texts : List String}
  {ps : List Piece}

theorem run_representAll {es : List Entity}
    (h : es.map (representation host s.heap s.heap.depth) = texts.map some) :
    representAll host es s = ⟨.ok texts, []⟩ := by
  induction es generalizing texts with
  | nil =>
    rw [List.map_eq_nil_iff.mp h.symm]
    rfl
  | cons e es ih =>
    cases texts with
    | nil => cases h
    | cons text texts =>
      rw [List.map_cons, List.map_cons, List.cons.injEq] at h
      have hrepresent : represent host e s = ⟨.ok text, []⟩ := by
        rw [represent, Eval.gets, Coroutine.gets_bind, h.1]
        rfl
      rw [representAll, Coroutine.bind_quiet hrepresent, Coroutine.bind_quiet (ih h.2)]
      rfl

/-- What `format_args` comes to. -/
theorem exit_formatArgs (h : Given host s args base texts) : (formatArgs host args s).exit =
    .ok (if texts = [] then .ok base
      else match host.format (toBoostFormat texts.length base) texts with
        | some text => .ok text
        | none => .error formatUsage) := by
  obtain ⟨name, a, rest, rfl, hbase, htexts⟩ := h
  have hall : representAll host (rest.map Prod.snd) s = ⟨.ok texts, []⟩ :=
    run_representAll (by rw [List.map_map]; exact htexts)
  have hlen : rest.length = texts.length := by
    simpa using congrArg List.length htexts
  rw [formatArgs, Eval.gets, Coroutine.gets_bind, hbase]
  cases rest with
  | nil =>
    rw [List.length_eq_zero_iff.mp hlen.symm]
    rfl
  | cons arg rest =>
    have hne : texts ≠ [] := by
      rintro rfl
      cases hlen
    rw [if_neg hne, if_neg (show ¬ (arg :: rest).isEmpty = true from Bool.false_ne_true),
      Coroutine.bind_quiet hall, hlen]
    cases host.format (toBoostFormat texts.length base) texts <;> rfl

theorem Given.right_nil (h : Given host s args base []) : Right host s args base [] := by
  refine ⟨base.toList.map .literal, splits_literals 0 _, ?_⟩
  have hbase : filled [] (base.toList.map .literal) = base := by
    simp [filled, List.flatMap_map, Piece.fill]
  rw [exit_formatArgs h, if_pos rfl, hbase]

/-- With arguments, what is right is what `boost::format` gives. -/
theorem Given.right_iff (h : Given host s args base texts) (hne : texts ≠ [])
    (hps : Splits 0 texts.length base.toList ps) : Right host s args base texts ↔
      host.format (.ofList (template ps)) texts = some (filled texts ps) := by
  have hexit := exit_formatArgs h
  rw [if_neg hne, toBoostFormat_eq hps] at hexit
  constructor
  · rintro ⟨qs, hqs, hright⟩
    rw [hqs.unique hps, hexit] at hright
    cases hformat : host.format (.ofList (template ps)) texts with
    | none =>
      rw [hformat] at hright
      cases hright
    | some text =>
      rw [hformat] at hright
      cases hright
      rfl
  · intro hformat
    rw [hformat] at hexit
    exact ⟨ps, hps, hexit⟩

/-- **Without percent signs in the base string, it depends on the last argument.** -/
theorem right_iff_of_no_percent (hf : Reads host.format) (h : Given host s args base texts)
    (hbase : '%' ∉ base.toList ∨ texts = []) :
    Right host s args base texts ↔ Condition base texts.length := by
  by_cases hne : texts = []
  · subst hne
    exact iff_of_true h.right_nil (.inl rfl)
  · have hbase := hbase.resolve_right hne
    have hpos : 0 < texts.length := List.length_pos_iff.mpr hne
    obtain ⟨ps, hps⟩ := splits_exists 0 texts.length base.toList
    have hvalid := hps.valid hbase
    have hcondition : Condition base texts.length ↔ highest ps = texts.length := by
      rw [Condition, hps.highest_eq_iff hpos]
      exact ⟨fun hor => (hor.resolve_left (Nat.ne_of_gt hpos)).2, fun hp => .inr ⟨hbase, hp⟩⟩
    rw [h.right_iff hne hps, hcondition]
    constructor
    · intro hformat
      by_contra hhighest
      have hlt := Nat.lt_of_le_of_ne hps.highest_le hhighest
      cases (hf.tooMany ps texts hvalid hlt).symm.trans hformat
    · exact hf.fed ps texts hvalid

/-- A state with a base string and the boolean `true`. -/
def truthState (base : String) : State :=
  { State.fresh [] with heap := (Heap.initial.write .string 0 base).write .boolean 0 true }

def truthArguments (n : Nat) : CallArguments :=
  (none, .string 0) :: List.replicate n (none, .boolean 0)

theorem given_truths (host : Host) (base : String) (n : Nat) :
    Given host (truthState base) (truthArguments n) base (truths n) := by
  refine ⟨none, 0, _, rfl, ?_, ?_⟩
  · have hkind : Kind.string ≠ .boolean := by decide
    exact (Heap.write_cell_of_kind _ hkind 0 true 0).trans (Heap.write_cell_self ..)
  · have hcell : (truthState base).heap.cell .boolean 0 = true := Heap.write_cell_self ..
    rw [List.map_replicate, truths, List.map_replicate]
    refine congrArg (List.replicate n) ?_
    show some (if (truthState base).heap.cell .boolean 0 then "true" else "false") = some "true"
    rw [hcell]
    rfl

/-- With percent signs in the base string, some arguments come out wrong. -/
theorem condition_of_right (hf : Reads host.format) {n : Nat} (hu : Understood host base n)
    (h : Right host (truthState base) (truthArguments n) base (truths n)) : Condition base n := by
  by_cases hn : n = 0
  · exact .inl hn
  have hgiven := given_truths host base n
  have hlen : (truths n).length = n := List.length_replicate
  have hne : truths n ≠ [] := fun he => hn (by rw [← hlen, he]; rfl)
  obtain ⟨ps, hps⟩ := splits_exists 0 (truths n).length base.toList
  have hformat := (hgiven.right_iff hne hps).mp h
  have htemplate := toBoostFormat_eq hps
  rw [hlen] at htemplate
  rw [← htemplate] at hformat
  have hpercent : '%' ∉ base.toList := by
    rcases hu with ⟨qs, hvalid, hqs⟩ | hrejected
    · have hsame : template ps = template qs := by
        rw [← String.ofList_inj]
        exact htemplate.symm.trans hqs
      rw [hqs] at hformat
      have hhighest : highest qs = (truths n).length := by
        rcases Nat.lt_trichotomy (highest qs) (truths n).length with hlt | heq | hgt
        · cases (hf.tooMany qs _ hvalid hlt).symm.trans hformat
        · exact heq
        · cases (hf.tooFew qs _ hvalid hgt).symm.trans hformat
      have hfilled : filled (truths n) ps = filled (truths n) qs :=
        Option.some.inj (hformat.symm.trans (hf.fed qs _ hvalid hhighest))
      rw [hlen] at hps hhighest
      have hnone := no_percent hps.not_percent (fun hp => hvalid _ hp rfl)
        (fun i hi => hps.bounds hi)
        (fun i hi => ⟨hvalid _ hi, highest_le_iff.mp (Nat.le_of_eq hhighest) _ hi⟩) hsame hfilled
      exact fun hmem => hnone (hps.percent_mem hmem)
    · cases (hrejected _).symm.trans hformat
  rw [← hlen]
  exact (right_iff_of_no_percent hf hgiven (.inl hpercent)).mp h

/-- **Where the text is what it should be.** Whatever the representations are, it is where there are no
arguments, and else where the base string has no percent sign and asks for the last argument; where it has
a percent sign, as far as `boost::format` is known, some arguments come out wrong. -/
theorem formatArgs_iff (hf : Reads host.format) :
    (∀ s args base texts, Given host s args base texts → '%' ∉ base.toList ∨ texts = [] →
      (Right host s args base texts ↔ Condition base texts.length)) ∧
    ∀ base n, Understood host base n →
      ((∀ s args texts, Given host s args base texts → texts.length = n →
        Right host s args base texts) ↔ Condition base n) := by
  refine ⟨fun s args base texts => right_iff_of_no_percent hf, fun base n hu => ⟨fun h => ?_, ?_⟩⟩
  · exact condition_of_right hf hu (h _ _ _ (given_truths host base n) List.length_replicate)
  · rintro hcondition s args texts hgiven rfl
    refine (right_iff_of_no_percent hf hgiven ?_).mpr hcondition
    exact hcondition.symm.imp And.left List.length_eq_zero_iff.mp

end Law

/-! ## A format that is known -/

/-- Text, `%%` and `%N%`; `some digits` after a percent sign with these digits. -/
def readPieces : Option (List Char) → List Char → Option (List Piece)
  | none, [] => some []
  | none, c :: t =>
    if c = '%' then readPieces (some []) t else (readPieces none t).map (.literal c :: ·)
  | some _, [] => none
  | some digits, c :: t =>
    if c = '%' then
      let p := if digits = [] then .percent else .directive (Grammar.natOf digits)
      (readPieces none t).map (p :: ·)
    else if c.isDigit then readPieces (some (digits ++ [c])) t
    else none

def formatting : Host :=
  { Host.plain with
    format := fun format texts => (readPieces none format.toList).bind fun ps =>
      if highest ps = texts.length then some (filled texts ps) else none }

section Formatting

variable {ps : List Piece} {t l digits : List Char}

theorem readPieces_digits (hl : ∀ c ∈ l, c.isDigit = true) :
    readPieces (some digits) (l ++ t) = readPieces (some (digits ++ l)) t := by
  induction l generalizing digits with
  | nil => rw [List.append_nil, List.nil_append]
  | cons c l ih =>
    obtain ⟨hc, hl⟩ := List.forall_mem_cons.mp hl
    have hne : c ≠ '%' := by
      rintro rfl
      cases hc
    rw [List.cons_append, readPieces, if_neg hne, if_pos hc, ih hl, List.append_assoc,
      List.singleton_append]

theorem readPieces_template (h : ∀ p ∈ ps, p.Valid) : readPieces none (template ps) = some ps := by
  induction ps with
  | nil => rfl
  | cons p ps ih =>
    obtain ⟨hp, hps⟩ := List.forall_mem_cons.mp h
    rw [template_cons]
    cases p with
    | literal c =>
      show readPieces none (c :: template ps) = _
      rw [readPieces, if_neg hp, ih hps]
      rfl
    | percent =>
      show readPieces none ('%' :: '%' :: template ps) = _
      rw [readPieces, if_pos rfl, readPieces, if_pos rfl, ih hps]
      rfl
    | directive i =>
      show readPieces none ('%' :: ((toString i).toList ++ ['%'] ++ template ps)) = _
      rw [readPieces, if_pos rfl, List.append_assoc,
        readPieces_digits Grammar.isDigit_of_mem_toString, List.nil_append]
      show readPieces (some (toString i).toList) ('%' :: template ps) = _
      rw [readPieces, if_pos rfl, if_neg (Grammar.toString_ne_nil i), Grammar.natOf_toString, ih hps]
      rfl

theorem reads_formatting : Reads formatting.format := by
  have hformat (ps : List Piece) (texts : List String) (h : ∀ p ∈ ps, p.Valid) :
      formatting.format (.ofList (template ps)) texts =
        if highest ps = texts.length then some (filled texts ps) else none := by
    show (readPieces none (String.ofList (template ps)).toList).bind _ = _
    rw [String.toList_ofList, readPieces_template h]
    rfl
  refine ⟨fun ps texts h heq => ?_, fun ps texts h hlt => ?_, fun ps texts h hgt => ?_⟩
  · rw [hformat ps texts h, if_pos heq]
  · rw [hformat ps texts h, if_neg (Nat.ne_of_lt hlt)]
  · rw [hformat ps texts h, if_neg (Nat.ne_of_gt hgt)]

end Formatting

/-- The second argument comes before the first one. -/
theorem formatArgs_swapped : Right formatting (truthState "\x7b2\x7d, \x7b1\x7d") (truthArguments 2)
    "\x7b2\x7d, \x7b1\x7d" (truths 2) := by
  refine ((formatArgs_iff reads_formatting).1 _ _ _ _ (given_truths _ _ 2) (.inl ?_)).mpr (.inr ?_)
  · decide
  · exact ⟨by decide, [], ", \x7b1\x7d".toList, by decide⟩

/-- An argument that is not asked for is fed all the same, and a percent sign has to be written twice. -/
theorem formatArgs_fails : Reads formatting.format ∧
    ¬ Right formatting (truthState "\x7b1\x7d") (truthArguments 2) "\x7b1\x7d" (truths 2) ∧
    ¬ Right formatting (truthState "%%\x7b1\x7d") (truthArguments 1) "%%\x7b1\x7d" (truths 1) := by
  refine ⟨reads_formatting, fun h => ?_, fun h => ?_⟩
  · have hu : Understood formatting "\x7b1\x7d" 2 := .inl ⟨[.directive 1], by decide, by decide⟩
    exact absurd (condition_of_right reads_formatting hu h) (by decide)
  · have hu : Understood formatting "%%\x7b1\x7d" 1 :=
      .inl ⟨[.percent, .directive 1], by decide, by decide⟩
    exact absurd (condition_of_right reads_formatting hu h) (by decide)

end Formatting

end EzCpp.Flow
