import EzCpp.Flow.Legible

/-!
# How the rules read a word

A word is what an identifier can go on with. No rule of an expression that reads a word looks beyond
its end, where what follows begins no word and no operator (`Stop`): the expression rule makes of
the word what it makes of it alone, with any fuel for its length (`agrees_expression`).
-/

namespace EzCpp.Flow.Grammar

open EzCpp.Lib Ast Parser

variable {α : Type} {reals : Reals} {u v : List Char} {w : String} {k n m : Nat}

/-! ## Words and what stops them -/

def Word (u : List Char) : Prop := ∀ c ∈ u, continuesIdentifier c = true

def Shorter (k : Nat) (u : List Char) : Prop := Word u ∧ u.length < k

/-- What ends a word, and goes on with no expression. -/
structure Stop (v : List Char) : Prop where
  head : ∀ c ∈ v.head?, c = ' ' ∨ c = ';' ∨ c = '='
  next : ∀ c ∈ (skip v).head?, c = ';' ∨ c = '='
  unequal : ¬ "==".toList <+: skip v

theorem stop_nil : Stop [] := ⟨nofun, nofun, by decide⟩

theorem stop_semicolon : Stop [';'] := by
  have hskip : skip [';'] = [';'] := by decide
  refine ⟨fun c hc => ?_, fun c hc => ?_, by rw [hskip]; decide⟩
  · cases hc
    exact .inr (.inl rfl)
  · rw [hskip] at hc
    cases hc
    exact .inl rfl

theorem stop_equals {t : List Char} : Stop (" = ".toList ++ t) := by
  have hskip : skip (" = ".toList ++ t) = '=' :: ' ' :: t :=
    (skip_blank _).trans (skip_of_solid (solid_of_ne (by decide) (by decide)))
  refine ⟨fun c hc => .inl ?_, fun c hc => .inr ?_, ?_⟩
  · cases hc
    rfl
  · rw [hskip] at hc
    cases hc
    rfl
  · rw [hskip]
    rintro ⟨r, hr⟩
    cases hr

/-- What is found at the beginning of a word when it is there, and nowhere in `Stop`. -/
def isSharp (w : String) : Bool :=
  (w.toList.all continuesIdentifier || w.toList.head?.any fun c => !continuesIdentifier c) &&
    (w = "==" || w.toList.head?.any fun c => c ≠ ';' && c ≠ '=')

theorem Stop.ends (hv : Stop v) : Ends v := fun c hc => by
  rcases hv.head c hc with rfl | rfl | rfl <;> rfl

theorem Stop.not_prefix (hv : Stop v) (hw : isSharp w) : ¬ w.toList <+: skip v := by
  simp only [isSharp, Bool.and_eq_true, Bool.or_eq_true, decide_eq_true_eq] at hw
  rcases hw.2 with rfl | hw
  · exact hv.unequal
  · refine not_prefix_of_head hw fun c hc => ?_
    rcases hv.next c hc with rfl | rfl <;> rfl

theorem Word.suffix (hu : Word u) (h : v <:+ u) : Word v := fun c hc => hu c (h.mem hc)

theorem Word.skip_append (hu : Word u) (hne : u ≠ []) : skip (u ++ v) = u ++ v := by
  obtain ⟨c, u, rfl⟩ := List.exists_cons_of_ne_nil hne
  have hc := hu c List.mem_cons_self
  refine skip_of_solid (solid_of_ne (isSpace_of_continues hc) fun heq => ?_)
  rw [heq] at hc
  cases hc

theorem Word.skip (hu : Word u) : skip u = u := by
  cases u with
  | nil => rfl
  | cons c u => simpa using hu.skip_append (v := []) (List.cons_ne_nil _ _)

theorem word_prefix_iff {s : List Char} (hs : ∀ c ∈ s, continuesIdentifier c = true) (hv : Ends v) :
    s <+: u ++ v ↔ s <+: u :=
  ⟨fun h => by_contra fun hn => not_prefix_append hs hv hn h, fun h => h.trans (List.prefix_append _ _)⟩

theorem sharp_prefix_iff (hv : Stop v) (hu : Word u) (hne : u ≠ []) (hw : isSharp w) :
    w.toList <+: u ++ v ↔ w.toList <+: u := by
  simp only [isSharp, Bool.and_eq_true, Bool.or_eq_true] at hw
  rcases hw.1 with hw | hw
  · exact word_prefix_iff (List.all_eq_true.mp hw) hv.ends
  · obtain ⟨c, u, rfl⟩ := List.exists_cons_of_ne_nil hne
    have hc : ∀ d ∈ (c :: u).head?, (!continuesIdentifier d) = false := fun d hd => by
      cases hd
      rw [hu c List.mem_cons_self]
      rfl
    exact iff_of_false (not_prefix_of_head hw hc) (not_prefix_of_head hw hc)

/-! ## Tokens -/

theorem agrees_lexeme {p : Parser α} (hp : ∀ u, Word u → u ≠ [] → p (u ++ v) = (p u).append v)
    (hv : p (skip v) = .fail) (hnil : p [] = .fail) : Agrees v Word (lexeme p) (lexeme p) := by
  intro u hu
  show p (skip (u ++ v)) = (p (skip u)).append v
  by_cases hne : u = []
  · rw [hne, List.nil_append, hv, skip_nil, hnil, Parsed.append]
  · rw [hu.skip_append hne, hu.skip, hp u hu hne]

theorem ne_nil_of_sharp (hw : isSharp w) : w.toList ≠ [] := by
  intro h
  simp only [isSharp, h, Bool.and_eq_true, Bool.or_eq_true, decide_eq_true_eq] at hw
  rcases hw.2 with rfl | hw
  · exact absurd h (by decide)
  · cases hw

theorem agrees_lit (hv : Stop v) (hw : isSharp w) : Agrees v Word (lit w) (lit w) :=
  agrees_lexeme (fun _ hu hne => text_append (sharp_prefix_iff hv hu hne hw))
    (text_fail (hv.not_prefix hw)) (text_fail fun h => ne_nil_of_sharp hw (List.prefix_nil.mp h))

theorem agrees_symbol {table : List (String × α)} (hv : Stop v) (ht : ∀ e ∈ table, isSharp e.1) :
    Agrees v Word (symbol table) (symbol table) :=
  agrees_lexeme
    (fun _ hu hne => symbols_append fun e he => sharp_prefix_iff hv hu hne (ht e he))
    (symbols_fail fun e he => hv.not_prefix (ht e he))
    (symbols_fail fun e he h => ne_nil_of_sharp (ht e he) (List.prefix_nil.mp h))

theorem span_word {p : Char → Bool} (hu : ∀ c ∈ v.head?, p c = false) :
    (u ++ v).takeWhile p = u.takeWhile p ∧ (u ++ v).dropWhile p = u.dropWhile p ++ v := by
  induction u with
  | nil => simpa using span_append (l := []) nofun hu
  | cons c u ih =>
    rw [List.cons_append, List.takeWhile_cons, List.dropWhile_cons, List.takeWhile_cons,
      List.dropWhile_cons, ih.1, ih.2]
    split
    · exact ⟨rfl, rfl⟩
    · exact ⟨rfl, rfl⟩

theorem identifierBase_append (hv : Ends v) (hu : u ≠ []) :
    identifierBase (u ++ v) = (identifierBase u).append v := by
  obtain ⟨c, u, rfl⟩ := List.exists_cons_of_ne_nil hu
  obtain ⟨htake, hdrop⟩ := span_word (u := u) hv
  rw [List.cons_append, identifierBase, identifierBase, htake, hdrop]
  split <;> rfl

theorem Stop.not_starts (hv : Stop v) : ∀ c ∈ (skip v).head?, startsIdentifier c = false :=
  fun c hc => by rcases hv.next c hc with rfl | rfl <;> rfl

theorem sharp_keywords : ∀ e ∈ keyword, isSharp e.1 := by decide

theorem agrees_reserved (hv : Stop v) : Agrees v Word reserved reserved := by
  refine agrees_lexeme (fun u hu hne => ?_) ?_ ?_
  · have hs : Agrees v (fun t => t = u) (symbols keyword) (symbols keyword) := by
      rintro _ rfl
      exact symbols_append fun e he => sharp_prefix_iff hv hu hne (sharp_keywords e he)
    have hbase : Agrees v (fun _ => True) identifierBase identifierBase := by
      rintro t -
      by_cases ht : t = []
      · rw [ht, List.nil_append, identifierBase_fail (not_startsIdentifier_of_ends hv.ends)]
        rfl
      · exact identifierBase_append hv.ends ht
    exact hs.bind (Q := fun _ => True) (fun _ _ _ _ _ => trivial) (fun _ => hbase.notAhead) rfl
  · exact bind_fail (symbols_fail fun e he => hv.not_prefix (sharp_keywords e he))
  · exact bind_fail (symbols_fail fun e he h =>
      ne_nil_of_sharp (sharp_keywords e he) (List.prefix_nil.mp h))

theorem leads_word {p : Parser α} (hp : Shortens p) : Leads Word Word p :=
  fun _ _ _ hu h => hu.suffix (hp h)

theorem agrees_identifier (hv : Stop v) : Agrees v Word identifier identifier :=
  (agrees_reserved hv).notAhead.bind (leads_word .notAhead) fun _ =>
    agrees_lexeme (fun _ _ hne => identifierBase_append hv.ends hne)
      (identifierBase_fail hv.not_starts) rfl

/-! ## Literals -/

theorem noDigit_of_ends (hv : Ends v) : NoDigit v := fun c hc => by
  have h := hv c hc
  simp only [continuesIdentifier, Char.isAlphanum, Bool.or_eq_false_iff] at h
  exact h.1.2

theorem digits_append (bound : Nat) (hv : Ends v) :
    digits bound (u ++ v) = (digits bound u).append v := by
  obtain ⟨htake, hdrop⟩ := span_word (u := u) (noDigit_of_ends hv)
  simp only [digits, htake, hdrop]
  split <;> rfl

theorem Word.head_ne {c : Char} (hu : Word u) (hc : continuesIdentifier c = false) :
    ∀ d ∈ u.head?, d ≠ c := by
  rintro d hd rfl
  rw [hu d (List.mem_of_mem_head? hd)] at hc
  cases hc

theorem Stop.head_ne {c : Char} (hv : Stop v) (hc : c ∉ [' ', ';', '=']) : ∀ d ∈ v.head?, d ≠ c := by
  rintro d hd rfl
  exact hc (by simpa using hv.head d hd)

/-- What begins neither a word nor a `Stop` begins no text of the two. -/
theorem append_head_ne {c : Char} (hu : Word u) (hv : Stop v) (hw : continuesIdentifier c = false)
    (hc : c ∉ [' ', ';', '=']) : ∀ d ∈ (u ++ v).head?, d ≠ c := by
  cases u with
  | nil => exact hv.head_ne hc
  | cons d u => exact hu.head_ne hw

theorem nan_eq {t : List Char} (h : ∀ r, noCase ['n', 'a', 'n'] t = some r → ∀ d ∈ r.head?, d ≠ '(') :
    nan t = noCase ['n', 'a', 'n'] t := by
  unfold nan
  cases hr : noCase ['n', 'a', 'n'] t with
  | none => rfl
  | some r =>
    rw [Option.bind_some]
    split
    next => exact absurd rfl (h _ hr '(' rfl)
    next => rfl

theorem nan_word (hu : Word u) (hv : Stop v) : nan (u ++ v) = (nan u).map (· ++ v) := by
  have hword : ∀ r, noCase ['n', 'a', 'n'] u = some r → Word r := fun r hr =>
    hu.suffix (noCase_suffix hr)
  have happend : noCase ['n', 'a', 'n'] (u ++ v) = (noCase ['n', 'a', 'n'] u).map (· ++ v) :=
    noCase_append (by decide) hv.ends
  have hopen : ∀ r, noCase ['n', 'a', 'n'] (u ++ v) = some r → ∀ d ∈ r.head?, d ≠ '(' := by
    intro r hr
    rw [happend] at hr
    obtain ⟨s, hs, rfl⟩ := Option.map_eq_some_iff.mp hr
    exact append_head_ne (hword s hs) hv (by decide) (by decide)
  rw [nan_eq hopen, nan_eq fun r hr => (hword r hr).head_ne (by decide), happend]

theorem infinity_word (hv : Stop v) : infinity (u ++ v) = (infinity u).map (· ++ v) := by
  unfold infinity
  rw [noCase_append (by decide) hv.ends]
  cases noCase ['i', 'n', 'f'] u with
  | none => rfl
  | some r =>
    simp only [Option.map_some, noCase_append (by decide : ∀ c ∈ ['i', 'n', 'i', 't', 'y'],
      c.isLower = true) hv.ends]
    cases noCase ['i', 'n', 'i', 't', 'y'] r <;> rfl

theorem exponent_eq {t : List Char} (h : Unsigned t) : exponent t =
    if t.takeWhile Char.isDigit = [] then none else some (t.dropWhile Char.isDigit) := by
  simp only [exponent]
  split
  next => exact absurd rfl (h '+' rfl).1
  next => exact absurd rfl (h '-' rfl).2
  next => rfl

theorem exponent_word (hu : Word u) (hv : Stop v) : exponent (u ++ v) = (exponent u).map (· ++ v) := by
  obtain ⟨htake, hdrop⟩ := span_word (u := u) (noDigit_of_ends hv.ends)
  rw [exponent_eq fun d hd => ⟨append_head_ne hu hv (by decide) (by decide) d hd,
      append_head_ne hu hv (by decide) (by decide) d hd⟩,
    exponent_eq fun d hd => ⟨hu.head_ne (by decide) d hd, hu.head_ne (by decide) d hd⟩, htake, hdrop]
  split <;> rfl

theorem exponentLetter_word (hv : Stop v) :
    exponentLetter (u ++ v) = (exponentLetter u).map (· ++ v) := by
  cases u with
  | nil =>
    have hnone : exponentLetter v = none := by
      unfold exponentLetter
      split
      next => exact absurd rfl (hv.head_ne (c := 'e') (by decide) 'e' rfl)
      next => exact absurd rfl (hv.head_ne (c := 'E') (by decide) 'E' rfl)
      next => rfl
    rw [List.nil_append, hnone]
    rfl
  | cons c u =>
    rw [List.cons_append]
    unfold exponentLetter
    split
    next heq =>
      cases heq
      rfl
    next heq =>
      cases heq
      rfl
    next he hE =>
      split
      next heq => cases heq; exact absurd rfl (he _)
      next heq => cases heq; exact absurd rfl (hE _)
      next => rfl

theorem numeral_eq {t : List Char} (h : ∀ d ∈ (t.dropWhile Char.isDigit).head?, d ≠ '.') :
    numeral t = if t.takeWhile Char.isDigit = [] then none
      else (exponentLetter (t.dropWhile Char.isDigit)).bind exponent := by
  simp only [numeral]
  split
  next u hu => exact absurd rfl (h '.' (by rw [hu]; rfl))
  next => rfl

theorem numeral_word (hu : Word u) (hv : Stop v) : numeral (u ++ v) = (numeral u).map (· ++ v) := by
  obtain ⟨htake, hdrop⟩ := span_word (u := u) (noDigit_of_ends hv.ends)
  have hrest : Word (u.dropWhile Char.isDigit) := hu.suffix (List.dropWhile_suffix _)
  have hpoint : ∀ d ∈ ((u ++ v).dropWhile Char.isDigit).head?, d ≠ '.' := by
    rw [hdrop]
    exact append_head_ne hrest hv (by decide) (by decide)
  rw [numeral_eq hpoint, numeral_eq (hrest.head_ne (by decide)), htake, hdrop,
    exponentLetter_word hv]
  split
  · rfl
  · cases hl : exponentLetter (u.dropWhile Char.isDigit) with
    | none => rfl
    | some t => exact exponent_word (hrest.suffix (exponentLetter_suffix hl)) hv

theorem unsignedReal_word (hu : Word u) (hv : Stop v) :
    unsignedReal reals (u ++ v) = (unsignedReal reals u).append v := by
  obtain ⟨htake, -⟩ := span_word (u := u) (noDigit_of_ends hv.ends)
  unfold unsignedReal
  rw [htake, nan_word hu hv, infinity_word hv, numeral_word hu hv]
  simp only [Option.isSome_map]
  split
  next h =>
    obtain ⟨r, hr⟩ := Option.isSome_iff_exists.mp h.2
    rw [hr]
    rfl
  next =>
    split
    next h =>
      obtain ⟨r, hr⟩ := Option.isSome_iff_exists.mp h.2
      rw [hr]
      rfl
    next =>
      cases hr : numeral u with
      | none => rfl
      | some r =>
        -- The characters of the number are the same, with `v` left or not.
        obtain ⟨d, rfl⟩ := numeral_suffix hr
        have hd : (d ++ r ++ v).take ((d ++ r ++ v).length - (r ++ v).length) = d := by
          rw [List.append_assoc, List.length_append, Nat.add_sub_cancel, List.take_left]
        have hd' : (d ++ r).take ((d ++ r).length - r.length) = d := by
          rw [List.length_append, Nat.add_sub_cancel, List.take_left]
        simp only [Option.map_some, hd, hd']
        cases reals.number d <;> rfl

theorem Word.unsigned (hu : Word u) : Unsigned u := fun c hc =>
  ⟨hu.head_ne (by decide) c hc, hu.head_ne (by decide) c hc⟩

theorem Stop.unsigned (hv : Stop v) : Unsigned (skip v) := fun c hc => by
  rcases hv.next c hc with rfl | rfl <;> decide

theorem Word.unsigned_append (hu : Word u) (hne : u ≠ []) : Unsigned (u ++ v) := by
  obtain ⟨c, u, rfl⟩ := List.exists_cons_of_ne_nil hne
  exact hu.unsigned

theorem agrees_real (hv : Stop v) : Agrees v Word (real reals) (real reals) := by
  have hnone : ∀ {P : Char → Prop}, ∀ c ∈ ([] : List Char).head?, P c := fun _ hc => by cases hc
  have hnil : unsignedReal reals [] = .fail := unsignedReal_fail hnone hnone rfl rfl
  have hstop : unsignedReal reals (skip v) = .fail := by
    have hne : ∀ c ∈ (skip v).head?, c.isDigit = false ∧ c.isAlpha = false ∧ c ≠ '.' := fun c hc => by
      rcases hv.next c hc with rfl | rfl <;> decide
    refine unsignedReal_fail (fun c hc => (hne c hc).1) (fun c hc => (hne c hc).2.2) ?_ ?_
    · rw [nan, noCase_eq_none (by decide) fun c hc => (hne c hc).2.1]
      rfl
    · rw [infinity, noCase_eq_none (by decide) fun c hc => (hne c hc).2.1]
      rfl
  intro u hu
  by_cases hne : u = []
  · rw [hne, List.nil_append, real_eq hv.unsigned, hstop, real_eq (t := []) hnone, skip_nil, hnil,
      Parsed.append]
  · rw [real_eq (by rw [hu.skip_append hne]; exact hu.unsigned_append hne),
      real_eq (by rw [hu.skip]; exact hu.unsigned), hu.skip_append hne, hu.skip,
      unsignedReal_word hu hv]

theorem agrees_integer (hv : Stop v) : Agrees v Word integer integer := by
  have hnil : digits (2 ^ 31 - 1) [] = .fail := digits_fail nofun
  have hstop : digits (2 ^ 31 - 1) (skip v) = .fail := digits_fail fun c hc => by
    rcases hv.next c hc with rfl | rfl <;> decide
  intro u hu
  by_cases hne : u = []
  · rw [hne, List.nil_append, integer_eq hv.unsigned, bind_fail hstop,
      integer_eq (t := []) nofun, skip_nil, bind_fail hnil, Parsed.append]
  · rw [integer_eq (by rw [hu.skip_append hne]; exact hu.unsigned_append hne),
      integer_eq (by rw [hu.skip]; exact hu.unsigned), hu.skip_append hne, hu.skip]
    have hdigits : Agrees v (fun _ => True) (digits (2 ^ 31 - 1)) (digits (2 ^ 31 - 1)) :=
      fun _ _ => digits_append _ hv.ends
    exact hdigits.bind (Q := fun _ => True) (fun _ _ _ _ _ => trivial) (fun _ => .pure _) trivial

theorem string_word_fail (hu : Word u) (hv : Stop v) : string (u ++ v) = .fail := by
  refine string_fail fun c hc => ?_
  by_cases hne : u = []
  · rw [hne, List.nil_append] at hc
    rcases hv.next c hc with rfl | rfl <;> decide
  · rw [hu.skip_append hne, List.head?_append_of_ne_nil _ hne] at hc
    exact ⟨hu.head_ne (by decide) c hc, hu.head_ne (by decide) c hc⟩

theorem agrees_duration (hv : Stop v) : Agrees v Word (lexeme duration) (lexeme duration) := by
  have hunits : ∀ e ∈ durationUnit, ∀ c ∈ e.1.toList, continuesIdentifier c = true := by decide
  refine agrees_lexeme (fun u hu _ => ?_) (bind_fail (digits_fail fun c hc => ?_)) rfl
  · have huint : Agrees v Word uint uint := fun _ _ => digits_append _ hv.ends
    have hsymbols : Agrees v Word (symbols durationUnit) (symbols durationUnit) := fun _ _ =>
      symbols_append fun e he => word_prefix_iff (hunits e he) hv.ends
    exact huint.bind (leads_word (shortens_digits _)) (fun _ => hsymbols.bind
      (leads_word (.symbols _)) fun _ => .pure _) hu
  · rcases hv.next c hc with rfl | rfl <;> decide

theorem agrees_literal (hv : Stop v) : Agrees v Word (literal reals) (literal reals) := by
  have hstring : Agrees v Word string string :=
    .fail (fun _ hu => string_word_fail hu hv) fun u hu => by
      simpa using string_word_fail hu stop_nil
  refine .firstOf (.cons ?_ (.cons ?_ (.cons ?_ (.cons ?_ (.cons ?_ .nil)))))
  · exact hstring.bind (Q := Word) (fun u a r hu h => by
      rw [show string u = .fail by simpa using string_word_fail hu stop_nil] at h
      cases h) fun _ => .pure _
  · exact (agrees_symbol hv (by decide)).bind (leads_word (shortens_symbol _)) fun _ => .pure _
  · exact (agrees_duration hv).bind (leads_word (shortens_lexeme ((shortens_digits _).bind fun _ =>
      (Shortens.symbols _).bind fun _ => .pure _))) fun _ => .pure _
  · exact (agrees_real hv).bind (leads_word shortens_real) fun _ => .pure _
  · exact (agrees_integer hv).bind (leads_word shortens_integer) fun _ => .pure _

/-! ## Expressions -/

theorem Shorter.suffix (hu : Shorter k u) (h : v <:+ u) : Shorter k v :=
  ⟨hu.1.suffix h, Nat.lt_of_le_of_lt h.length_le hu.2⟩

theorem leads_shorter {p : Parser α} (hp : Shortens p) : Leads (Shorter k) (Shorter k) p :=
  fun _ _ _ hu h => hu.suffix (hp h)

/-- A token takes something of a word. -/
theorem shorter_of_token {r : List Char} (hu : Shorter (k + 1) u) (hw : w.toList ≠ [])
    (h : skip u = w.toList ++ r) : Shorter k r := by
  rw [hu.1.skip] at h
  subst h
  have hlt := hu.2
  rw [List.length_append] at hlt
  exact ⟨hu.1.suffix (List.suffix_append _ _), by have := List.length_pos_iff.mpr hw; omega⟩

theorem leads_lit (hw : w.toList ≠ []) : Leads (Shorter (k + 1)) (Shorter k) (lit w) :=
  fun _ _ _ hu h => shorter_of_token hu hw (of_text_ok h)

theorem lit_word_fail (hu : Word u) (hw : w.toList.head?.any fun c => !continuesIdentifier c) :
    lit w u = .fail := by
  refine lit_fail (not_prefix_of_head hw fun c hc => ?_)
  rw [hu.skip] at hc
  rw [hu c (List.mem_of_mem_head? hc)]
  rfl

/-- A sign is at the beginning of neither. -/
theorem sign_fail (hv : Stop v) (hu : Word u) {s : String} (hs : isSharp s)
    (hsign : s.toList.head?.any fun c => !continuesIdentifier c) : lit s (u ++ v) = .fail := by
  rw [agrees_lit hv hs hu, lit_word_fail hu hsign, Parsed.append]

/-- What begins with a sign of its own is in no word. -/
theorem agrees_sign {p q : Unit → Parser α} (hv : Stop v) (hs : isSharp w)
    (hw : w.toList.head?.any fun c => !continuesIdentifier c) :
    Agrees v Word (lit w >>= p) (lit w >>= q) :=
  .fail (fun u hu => bind_fail (by rw [agrees_lit hv hs hu, lit_word_fail hu hw]; rfl))
    fun u hu => bind_fail (lit_word_fail hu hw)

theorem leads_identifier : Leads Word (fun r => r = []) identifier := by
  intro u w r hu h
  obtain ⟨hskip, -, hr, -⟩ := of_identifier_ok h
  rw [hu.skip] at hskip
  cases r with
  | nil => rfl
  | cons c r =>
    have hc := hr c rfl
    rw [hu c (by simp [hskip])] at hc
    cases hc

theorem word_of_spelled {w : Identifier} (hw : Spelled w) : Word w.toList ∧ w.toList ≠ [] := by
  obtain ⟨c, cs, hw, hc, hcs⟩ := hw
  rw [hw]
  exact ⟨List.forall_mem_cons.mpr ⟨continues_of_starts hc, hcs⟩, List.cons_ne_nil _ _⟩

theorem word_of_identifier {w : Identifier} (hw : identifier w.toList = .ok w []) :
    Spelled w ∧ Word w.toList ∧ w.toList ≠ [] := by
  obtain ⟨-, hs, -, -⟩ := of_identifier_ok hw
  exact ⟨hs, word_of_spelled hs⟩

theorem agrees_identifierPath (hv : Stop v) :
    Agrees v Word (identifierPath n) (identifierPath m) := by
  refine (agrees_identifier hv).bind leads_identifier fun front => ?_
  rintro _ rfl
  have hdot : lit "." v = .fail := lit_fail (hv.not_prefix (by decide))
  have hdot' : lit "." [] = .fail := lit_fail (by decide)
  rw [List.nil_append, bind_ok (many_fail (bind_fail hdot)), bind_ok (many_fail (bind_fail hdot'))]
  rfl

theorem leads_identifierPath : Leads Word (fun r => r = []) (identifierPath m) := by
  intro u path r hu h
  obtain ⟨front, u', hfront, h⟩ := of_bind_ok h
  obtain rfl := leads_identifier hu hfront
  have hdot : lit "." [] = .fail := lit_fail (by decide)
  rw [bind_ok (many_fail (bind_fail hdot))] at h
  cases h
  rfl

theorem agrees_functionCall {p q : Parser Expression} (hv : Stop v) :
    Agrees v Word (functionCall n p) (functionCall m q) := by
  refine (agrees_identifierPath hv).bind leads_identifierPath fun path => ?_
  rintro _ rfl
  have hopen : lit "(" v = .fail := lit_fail (hv.not_prefix (by decide))
  have hopen' : lit "(" [] = .fail := lit_fail (by decide)
  rw [List.nil_append, bind_fail hopen, bind_fail hopen', Parsed.append]

section Rules

variable {p q : Parser Expression}

theorem agrees_awaitExpression (hv : Stop v) (h : Agrees v (Shorter k) p q) (hq : Shortens q) :
    Agrees v (Shorter (k + 1)) (awaitExpression p) (awaitExpression q) :=
  ((agrees_lit hv (by decide)).mono fun _ hu => hu.1).bind (leads_lit (by decide)) fun _ =>
    h.bind (leads_shorter hq) fun _ =>
      ((agrees_lit hv (by decide)).mono fun _ hu => hu.1).bind (leads_shorter (shortens_lit _))
        fun _ => h.bind (leads_shorter hq) fun _ => .pure _

theorem agrees_tryExpression (hv : Stop v) (h : Agrees v (Shorter k) p q) :
    Agrees v (Shorter (k + 1)) (tryExpression p) (tryExpression q) :=
  ((agrees_lit hv (by decide)).mono fun _ hu => hu.1).bind (leads_lit (by decide)) fun _ => h

theorem agrees_primaryExpr (hv : Stop v) (h : Agrees v (Shorter k) p q) (hq : Shortens q) :
    Agrees v (Shorter (k + 1)) (primaryExpr reals n p) (primaryExpr reals m q) := by
  have hpath := shortens_identifierPath (n := m)
  refine .firstOf (.cons ?_ (.cons ?_ (.cons ?_ (.cons ?_ (.cons ?_ (.cons ?_ (.cons ?_
    (.cons ?_ .nil))))))))
  · exact (agrees_awaitExpression hv h hq).bind (leads_shorter ((shortens_lit _).bind fun _ =>
      hq.bind fun _ => (shortens_lit _).bind fun _ => hq.bind fun _ => .pure _)) fun _ => .pure _
  · exact (agrees_tryExpression hv h).bind (leads_shorter ((shortens_lit _).bind fun _ => hq))
      fun _ => .pure _
  · exact ((agrees_literal hv).bind (leads_word shortens_literal) fun _ => .pure _).mono
      fun _ hu => hu.1
  · exact ((agrees_functionCall hv).bind (leads_word (shortens_functionCall hq))
      fun _ => .pure _).mono fun _ hu => hu.1
  · exact ((agrees_identifierPath hv).bind (leads_word hpath) fun _ => .pure _).mono fun _ hu => hu.1
  · exact ((agrees_sign hv (by decide) (by decide)).bind (leads_word (shortens_array hq))
      fun _ => .pure _).mono fun _ hu => hu.1
  · exact ((agrees_sign hv (by decide) (by decide)).bind (leads_word (shortens_dictionary hq))
      fun _ => .pure _).mono fun _ hu => hu.1
  · exact ((agrees_sign hv (by decide) (by decide)).bind (leads_word ((shortens_lit _).bind fun _ =>
      hq.expect.bind fun _ => (shortens_lit _).expect.bind fun _ => .pure _))
      fun _ => .pure _).mono fun _ hu => hu.1

theorem agrees_unaryExpr (hv : Stop v) (h : Agrees v (Shorter k) p q) (hq : Shortens q) :
    Agrees v (Shorter (k + 1)) (unaryExpr reals n p) (unaryExpr reals m q) :=
  ((agrees_symbol hv (by decide)).option.mono fun _ hu => hu.1).bind
    (leads_shorter (shortens_symbol _).option) fun _ =>
      (agrees_primaryExpr hv h hq).bind (leads_shorter (shortens_primaryExpr hq)) fun _ => .pure _

end Rules

theorem agrees_binaryExpr {Term Operator : Type} {table : List (String × Operator)}
    {p q : Parser Term} (hv : Stop v) (ht : ∀ e ∈ table, isSharp e.1)
    (h : Agrees v (Shorter (k + 1)) p q) (hq : Shortens q) (hn : k ≤ n) (hm : k ≤ m) :
    Agrees v (Shorter (k + 1)) (binaryExpr n table p) (binaryExpr m table q) := by
  have hterm : Agrees v (Shorter (k + 1))
      (do let op ← symbol table; let term ← p.expect; return (⟨op, term⟩ : Operation Term Operator))
      (do let op ← symbol table; let term ← q.expect; return ⟨op, term⟩) :=
    ((agrees_symbol hv ht).mono fun _ hu => hu.1).bind (leads_shorter (shortens_symbol _)) fun _ =>
      h.expect.bind (leads_shorter hq.expect) fun _ => .pure _
  have hmany := Agrees.many (P := Word) hn hm (hterm.mono fun u hu => ⟨hu.1, Nat.lt_succ_of_le hu.2⟩)
    (fun u op r hu h => ?_) ?_
  · refine h.bind (leads_shorter hq) fun first => Agrees.bind (Q := fun _ => True)
      (hmany.mono fun u hu => ⟨hu.1, Nat.le_of_lt_succ hu.2⟩) (fun _ _ _ _ _ => trivial) fun _ =>
        .pure _
  · obtain ⟨op, u', hop, h⟩ := of_bind_ok h
    obtain ⟨s, hs, hskip⟩ := of_symbols_ok hop
    have hu' : Shorter u.length u' :=
      shorter_of_token ⟨hu, Nat.lt_succ_self _⟩ (ne_nil_of_sharp (ht _ hs)) hskip
    exact hu'.suffix ((hq.expect.bind fun _ => .pure _) h)
  · exact bind_fail (symbol_fail fun e he h => ne_nil_of_sharp (ht e he) (List.prefix_nil.mp h))

/-- **The expression rule reads a word by itself**: what stops the word changes nothing of what it
makes of it, and any fuel for the length of the word is enough. -/
theorem agrees_expression (hv : Stop v) (hn : k ≤ n) (hm : k ≤ m) :
    Agrees v (Shorter k) (expression reals n) (expression reals m) := by
  induction k generalizing n m with
  | zero => exact fun u hu => absurd hu.2 (Nat.not_lt_zero _)
  | succ k ih =>
    obtain ⟨n, rfl⟩ : ∃ n', n = n' + 1 := ⟨n - 1, by omega⟩
    obtain ⟨m, rfl⟩ : ∃ m', m = m' + 1 := ⟨m - 1, by omega⟩
    have hn := Nat.le_of_succ_le_succ hn
    have hm := Nat.le_of_succ_le_succ hm
    have he : Shortens (expression reals m) := shortens_expression m
    have hunary : Shortens (unaryExpr reals m (expression reals m)) :=
      (shortens_symbol _).option.bind fun _ => (shortens_primaryExpr he).bind fun _ => .pure _
    have hmult : Shortens (binaryExpr m multiplicativeOp _) := shortens_binaryExpr hunary
    have hadd : Shortens (binaryExpr m additiveOp _) := shortens_binaryExpr hmult
    have hrel : Shortens (binaryExpr m relationalOp _) := shortens_binaryExpr hadd
    have heq : Shortens (binaryExpr m equalityOp _) := shortens_binaryExpr hrel
    refine Agrees.bind (Q := fun _ => True) ?_ (fun _ _ _ _ _ => trivial) fun _ => .pure _
    refine agrees_binaryExpr hv (by decide) ?_ heq hn hm
    refine agrees_binaryExpr hv (by decide) ?_ hrel hn hm
    refine agrees_binaryExpr hv (by decide) ?_ hadd hn hm
    refine agrees_binaryExpr hv (by decide) ?_ hmult hn hm
    exact agrees_binaryExpr hv (by decide) (agrees_unaryExpr hv (ih hn hm) he) hunary hn hm

/-! ## Where an expression ends -/

def operators : List String := multiplicativeOp.map Prod.fst ++ additiveOp.map Prod.fst ++
  relationalOp.map Prod.fst ++ equalityOp.map Prod.fst ++ logicalOp.map Prod.fst

def NoOperator (v : List Char) : Prop := ∀ s ∈ operators, ¬ s.toList <+: skip v

theorem Stop.noOperator (hv : Stop v) : NoOperator v :=
  have hsharp : ∀ s ∈ operators, isSharp s := by decide
  fun s hs => hv.not_prefix (hsharp s hs)

section Alone

variable {t : List Char}

theorem binaryExpr_alone {Term Operator : Type} {table : List (String × Operator)}
    {term : Parser Term} {a : Term} (hv : NoOperator v) (ht : ∀ e ∈ table, e.1 ∈ operators)
    (h : term t = .ok a v) : binaryExpr n table term t = .ok ⟨a, []⟩ v :=
  (bind_ok h).trans (bind_ok (many_fail (bind_fail (symbol_fail fun e he => hv e.1 (ht e he)))))

theorem expression_of_unary {e : UnaryExpression} (hv : NoOperator v)
    (h : unaryExpr reals n (expression reals n) t = .ok e v) :
    expression reals (n + 1) t = .ok e.toExpression v :=
  bind_ok (binaryExpr_alone hv (by decide) (binaryExpr_alone hv (by decide) (binaryExpr_alone hv
    (by decide) (binaryExpr_alone hv (by decide) (binaryExpr_alone hv (by decide) h)))))

theorem expression_of_unary_fail (h : unaryExpr reals n (expression reals n) t = .fail) :
    expression reals (n + 1) t = .fail :=
  bind_fail (bind_fail (bind_fail (bind_fail (bind_fail (bind_fail h)))))

theorem expression_of_unary_abort (h : unaryExpr reals n (expression reals n) t = .abort) :
    expression reals (n + 1) t = .abort :=
  bind_abort (bind_abort (bind_abort (bind_abort (bind_abort (bind_abort h)))))

theorem expression_of_primary {p : PrimaryExpression} (hv : NoOperator v)
    (hop : symbol unaryOp t = .fail) (h : primaryExpr reals n (expression reals n) t = .ok p v) :
    expression reals (n + 1) t = .ok p.toExpression v :=
  expression_of_unary hv ((bind_ok (option_fail hop)).trans (bind_ok h))

end Alone

end EzCpp.Flow.Grammar
