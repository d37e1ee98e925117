import Mathlib.Data.List.Basic

/-!
# Parsing expressions

A parser takes a prefix of a text, or fails. Choice is ordered, repetition and options are greedy,
and nothing goes back into a parser that has succeeded. A parser can also abort, where its grammar
expects what is not there: no choice recovers from that.

Repetition has fuel, which the length of the text bounds where what is repeated takes something.
-/

namespace EzCpp.Lib

/-- The characters of a list are gone through, not all characters there are. -/
instance (priority := 2000) decidableForallChar (p : Char → Prop) [DecidablePred p] (l : List Char) :
    Decidable (∀ c ∈ l, p c) :=
  List.decidableBAll p l

instance (priority := 2000) decidableExistsChar (p : Char → Prop) [DecidablePred p] (l : List Char) :
    Decidable (∃ c ∈ l, p c) :=
  List.decidableBEx p l

/-- What a parser makes of a text. -/
inductive Parsed (α : Type)
  | ok (a : α) (rest : List Char)
  | fail
  | abort
deriving DecidableEq

def Parser (α : Type) : Type := List Char → Parsed α

namespace Parser

variable {α β : Type}

instance : Monad Parser where
  pure a := fun t => .ok a t
  bind p f := fun t =>
    match p t with
    | .ok a rest => f a rest
    | .fail => .fail
    | .abort => .abort

/-- Where `p` fails, nothing else is tried. -/
def expect (p : Parser α) : Parser α := fun t =>
  match p t with
  | .fail => .abort
  | result => result

/-- The first of these parsers that does not fail. -/
def firstOf : List (Parser α) → Parser α
  | [] => fun _ => .fail
  | p :: ps => fun t =>
    match p t with
    | .fail => firstOf ps t
    | result => result

def option (p : Parser α) : Parser (Option α) := fun t =>
  match p t with
  | .ok a rest => .ok (some a) rest
  | .fail => .ok none t
  | .abort => .abort

/-- `p` as often as it succeeds. -/
def many (p : Parser α) : Nat → Parser (List α)
  | 0 => fun t => .ok [] t
  | n + 1 => fun t =>
    match p t with
    | .ok a rest =>
      match many p n rest with
      | .ok as rest => .ok (a :: as) rest
      | .fail => .fail
      | .abort => .abort
    | .fail => .ok [] t
    | .abort => .abort

/-- `p` at least once, and `separator` between. -/
def list (n : Nat) (separator : Parser Unit) (p : Parser α) : Parser (List α) := do
  let a ← p
  let as ← many (do separator; p) n
  return a :: as

/-- Anything but what `p` takes; nothing is taken. -/
def notAhead (p : Parser α) : Parser Unit := fun t =>
  match p t with
  | .ok _ _ => .fail
  | .fail => .ok () t
  | .abort => .abort

/-- These characters, whatever follows them. -/
def text (s : String) : Parser Unit := fun t =>
  if s.toList.isPrefixOf t then .ok () (t.drop s.toList.length) else .fail

/-- The entry of a symbol table that takes most of a text. -/
def longest (t : List Char) : List (String × α) → Option (String × α)
  | [] => none
  | e :: table =>
    match longest t table with
    | some e' =>
      if e.1.toList.isPrefixOf t ∧ e'.1.toList.length ≤ e.1.toList.length then some e else some e'
    | none => if e.1.toList.isPrefixOf t then some e else none

def symbols (table : List (String × α)) : Parser α := fun t =>
  match longest t table with
  | some e => .ok e.2 (t.drop e.1.toList.length)
  | none => .fail

/-! ## Running the operations -/

section Run

variable {p : Parser α} {f : α → Parser β} {t r : List Char} {a : α} {s : String}

@[simp] theorem run_pure : (pure a : Parser α) t = .ok a t := rfl

theorem bind_ok (h : p t = .ok a r) : (p >>= f) t = f a r := by
  show (match p t with | .ok a rest => f a rest | .fail => .fail | .abort => .abort) = _
  rw [h]

theorem bind_fail (h : p t = .fail) : (p >>= f) t = .fail := by
  show (match p t with | .ok a rest => f a rest | .fail => .fail | .abort => .abort) = _
  rw [h]

theorem bind_abort (h : p t = .abort) : (p >>= f) t = .abort := by
  show (match p t with | .ok a rest => f a rest | .fail => .fail | .abort => .abort) = _
  rw [h]

theorem of_bind_ok {b : β} (h : (p >>= f) t = .ok b r) :
    ∃ a u, p t = .ok a u ∧ f a u = .ok b r := by
  cases hp : p t with
  | ok a u => exact ⟨a, u, rfl, by rwa [bind_ok hp] at h⟩
  | fail => rw [bind_fail hp] at h; cases h
  | abort => rw [bind_abort hp] at h; cases h

theorem expect_ok (h : p t = .ok a r) : p.expect t = .ok a r := by rw [expect, h]

theorem expect_fail (h : p t = .fail) : p.expect t = .abort := by rw [expect, h]

theorem expect_abort (h : p t = .abort) : p.expect t = .abort := by rw [expect, h]

theorem of_expect_ok (h : p.expect t = .ok a r) : p t = .ok a r := by
  unfold expect at h
  split at h
  · cases h
  · exact h

theorem option_ok (h : p t = .ok a r) : p.option t = .ok (some a) r := by rw [option, h]

theorem option_fail (h : p t = .fail) : p.option t = .ok none t := by rw [option, h]

theorem option_abort (h : p t = .abort) : option p t = .abort := by rw [option, h]

theorem firstOf_fail {ps : List (Parser α)} (h : p t = .fail) :
    firstOf (p :: ps) t = firstOf ps t := by simp only [firstOf, h]

theorem firstOf_ok {ps : List (Parser α)} (h : p t = .ok a r) :
    firstOf (p :: ps) t = .ok a r := by simp only [firstOf, h]

theorem firstOf_abort {ps : List (Parser α)} (h : p t = .abort) :
    firstOf (p :: ps) t = .abort := by simp only [firstOf, h]

theorem many_fail {n : Nat} (h : p t = .fail) : many p n t = .ok [] t := by
  cases n with
  | zero => rfl
  | succ n => simp only [many, h]

theorem many_ok {n : Nat} {as : List α} {r' : List Char} (h : p t = .ok a r)
    (hs : many p n r = .ok as r') : many p (n + 1) t = .ok (a :: as) r' := by
  simp only [many, h, hs]

theorem many_abort {n : Nat} (h : p t = .abort) : many p (n + 1) t = .abort := by simp only [many, h]

theorem many_ok_abort {n : Nat} (h : p t = .ok a r) (hs : many p n r = .abort) :
    many p (n + 1) t = .abort := by
  simp only [many, h, hs]

theorem list_ok {n : Nat} {separator : Parser Unit} {as : List α} {r' : List Char}
    (h : p t = .ok a r) (hs : many (do separator; p) n r = .ok as r') :
    list n separator p t = .ok (a :: as) r' := (bind_ok h).trans (bind_ok hs)

theorem list_fail {n : Nat} {separator : Parser Unit} (h : p t = .fail) :
    list n separator p t = .fail := bind_fail h

theorem text_ok (h : t = s.toList ++ r) : text s t = .ok () r := by
  have hp : s.toList.isPrefixOf (s.toList ++ r) = true :=
    List.isPrefixOf_iff_prefix.mpr (List.prefix_append _ _)
  rw [h, text, if_pos hp, List.drop_left]

theorem text_fail (h : ¬ s.toList <+: t) : text s t = .fail := by
  rw [text, if_neg fun hp => h (List.isPrefixOf_iff_prefix.mp hp)]

/-- What a prefix cannot take, it ends before. -/
theorem prefix_of_prefix_append {l u v : List Char} (h : l <+: u ++ v) (hv : ∀ c ∈ v.head?, c ∉ l) :
    l <+: u := by
  rcases List.prefix_or_prefix_of_prefix h (List.prefix_append u v) with h' | ⟨m, rfl⟩
  · exact h'
  · cases m with
    | nil => simp
    | cons c m =>
      obtain ⟨r, hr⟩ := (List.prefix_append_right_inj u).mp h
      exact absurd (by simp) (hv c (by simp [← hr]))

theorem of_text_ok {u : Unit} (h : text s t = .ok u r) : t = s.toList ++ r := by
  unfold text at h
  split at h
  next hp =>
    cases h
    obtain ⟨r, rfl⟩ := List.isPrefixOf_iff_prefix.mp hp
    rw [List.drop_left]
  next => cases h

theorem longest_eq_none_iff {table : List (String × α)} :
    longest t table = none ↔ ∀ e ∈ table, ¬ e.1.toList <+: t := by
  induction table with
  | nil => simp [longest]
  | cons e table ih =>
    rw [List.forall_mem_cons, ← ih, longest, ← List.isPrefixOf_iff_prefix]
    cases longest t table with
    | none => by_cases he : e.1.toList.isPrefixOf t = true <;> simp [he]
    | some e' =>
      simp only [reduceCtorEq, and_false, iff_false]
      split <;> exact nofun

theorem of_longest {table : List (String × α)} {e : String × α}
    (h : longest t table = some e) : e ∈ table ∧ e.1.toList <+: t := by
  induction table generalizing e with
  | nil => cases h
  | cons e₀ table ih =>
    unfold longest at h
    split at h
    next e' he' =>
      split at h
      next hp =>
        cases h
        exact ⟨List.mem_cons_self, List.isPrefixOf_iff_prefix.mp hp.1⟩
      next =>
        cases h
        exact (ih he').imp_left (List.mem_cons_of_mem _)
    next he' =>
      split at h
      next hp =>
        cases h
        exact ⟨List.mem_cons_self, List.isPrefixOf_iff_prefix.mp hp⟩
      next => cases h

theorem length_le_of_longest {table : List (String × α)} {e : String × α}
    (h : longest t table = some e) :
    ∀ e' ∈ table, e'.1.toList <+: t → e'.1.toList.length ≤ e.1.toList.length := by
  induction table generalizing e with
  | nil => exact nofun
  | cons e₀ table ih =>
    intro e' hm hp
    unfold longest at h
    rcases List.mem_cons.mp hm with rfl | hm
    · have hp := List.isPrefixOf_iff_prefix.mpr hp
      split at h
      next e₁ he₁ =>
        split at h <;> cases h
        next => exact Nat.le_refl _
        next hlt =>
          have : ¬ e.1.toList.length ≤ e'.1.toList.length := fun hle => hlt ⟨hp, hle⟩
          exact Nat.le_of_not_le this
      next =>
        rw [if_pos hp] at h
        cases h
        exact Nat.le_refl _
    · split at h
      next e₁ he₁ =>
        split at h <;> cases h
        next hle => exact Nat.le_trans (ih he₁ e' hm hp) hle.2
        next => exact ih he₁ e' hm hp
      next hnone => exact absurd hp (longest_eq_none_iff.mp hnone e' hm)

/-- An entry that takes as much as any other, and is the only one of its name. -/
theorem symbols_ok {table : List (String × α)} (hm : (s, a) ∈ table)
    (hu : ∀ e ∈ table, e.1 = s → e.2 = a) (hr : t = s.toList ++ r)
    (hmax : ∀ e ∈ table, e.1.toList <+: t → e.1.toList <+: s.toList) :
    symbols table t = .ok a r := by
  subst hr
  unfold symbols
  cases he : longest (s.toList ++ r) table with
  | none => exact absurd (List.prefix_append _ _) (longest_eq_none_iff.mp he _ hm)
  | some e =>
    obtain ⟨hmem, hp⟩ := of_longest he
    have hle := length_le_of_longest he _ hm (List.prefix_append _ _)
    have heq : e.1 = s := String.toList_inj.mp ((hmax e hmem hp).eq_of_length_le hle)
    simp only [hu e hmem heq, heq, List.drop_left]

theorem symbols_fail {table : List (String × α)} (h : ∀ e ∈ table, ¬ e.1.toList <+: t) :
    symbols table t = .fail := by
  rw [symbols, longest_eq_none_iff.mpr h]

theorem of_symbols_ok {table : List (String × α)} (h : symbols table t = .ok a r) :
    ∃ s, (s, a) ∈ table ∧ t = s.toList ++ r := by
  unfold symbols at h
  split at h
  next e he =>
    cases h
    obtain ⟨hm, r, rfl⟩ := of_longest he
    exact ⟨e.1, hm, by rw [List.drop_left]⟩
  next => cases h

end Run

/-! ## What is left of a text -/

/-- What a parser leaves is an end of what it was given. -/
def Shortens (p : Parser α) : Prop := ∀ ⦃t a r⦄, p t = .ok a r → r <:+ t

section Shortens

variable {p : Parser α} {n : Nat}

theorem Shortens.pure (a : α) : Shortens (pure a : Parser α) := by
  intro t a r h
  cases h
  exact List.suffix_refl t

theorem Shortens.bind {f : α → Parser β} (hp : Shortens p) (hf : ∀ a, Shortens (f a)) :
    Shortens (p >>= f) := by
  intro t b r h
  obtain ⟨a, u, hu, hr⟩ := of_bind_ok h
  exact (hf a hr).trans (hp hu)

theorem Shortens.expect (hp : Shortens p) : Shortens p.expect :=
  fun _ _ _ h => hp (of_expect_ok h)

theorem of_firstOf_ok {ps : List (Parser α)} {t r : List Char} {a : α}
    (h : firstOf ps t = .ok a r) : ∃ p ∈ ps, p t = .ok a r := by
  induction ps with
  | nil => cases h
  | cons p ps ih =>
    cases hp : p t with
    | ok b u => exact ⟨p, List.mem_cons_self, by rwa [firstOf_ok hp, ← hp] at h⟩
    | fail =>
      obtain ⟨q, hq, hr⟩ := ih (by rwa [firstOf_fail hp] at h)
      exact ⟨q, List.mem_cons_of_mem _ hq, hr⟩
    | abort => rw [firstOf_abort hp] at h; cases h

/-- The first of some parsers took the text, or failed. -/
theorem of_firstOf_cons {ps : List (Parser α)} {t r : List Char} {a : α}
    (h : Parser.firstOf (p :: ps) t = .ok a r) :
    p t = .ok a r ∨ (p t = .fail ∧ Parser.firstOf ps t = .ok a r) := by
  cases hp : p t with
  | ok b u => exact .inl (by rwa [firstOf_ok hp] at h)
  | fail => exact .inr ⟨rfl, by rwa [firstOf_fail hp] at h⟩
  | abort => rw [firstOf_abort hp] at h; cases h

theorem of_firstOf_fail {ps : List (Parser α)} {t : List Char}
    (h : Parser.firstOf ps t = .fail) : ∀ p ∈ ps, p t = .fail := by
  induction ps with
  | nil => exact nofun
  | cons p ps ih =>
    cases hp : p t with
    | ok b u => rw [firstOf_ok hp] at h; cases h
    | fail =>
      rw [firstOf_fail hp] at h
      exact List.forall_mem_cons.mpr ⟨hp, ih h⟩
    | abort => rw [firstOf_abort hp] at h; cases h

theorem of_bind_fail {f : α → Parser β} {t : List Char} (h : (p >>= f) t = .fail)
    (hf : ∀ a u, f a u ≠ .fail) : p t = .fail := by
  cases hp : p t with
  | ok a u => exact absurd ((bind_ok hp).symm.trans h) (hf a u)
  | fail => rfl
  | abort => rw [bind_abort hp] at h; cases h

theorem Shortens.firstOf {ps : List (Parser α)} (hp : ∀ p ∈ ps, Shortens p) :
    Shortens (firstOf ps) := by
  intro t a r h
  obtain ⟨p, hm, hr⟩ := of_firstOf_ok h
  exact hp p hm hr

theorem of_option_ok {t r : List Char} {a : Option α} (h : option p t = .ok a r) :
    (∃ b, a = some b ∧ p t = .ok b r) ∨ (a = none ∧ p t = .fail ∧ r = t) := by
  unfold option at h
  split at h
  next b u hp =>
    cases h
    exact .inl ⟨b, rfl, hp⟩
  next hp =>
    cases h
    exact .inr ⟨rfl, hp, rfl⟩
  next => cases h

theorem Shortens.option (hp : Shortens p) : Shortens (option p) := by
  intro t a r h
  rcases of_option_ok h with ⟨b, -, hb⟩ | ⟨-, -, rfl⟩
  · exact hp hb
  · exact List.suffix_refl _

/-- One more, or none. -/
theorem of_many_ok {t r : List Char} {as : List α} (h : many p n t = .ok as r) :
    (as = [] ∧ r = t) ∨
      ∃ a bs u m, as = a :: bs ∧ n = m + 1 ∧ p t = .ok a u ∧ many p m u = .ok bs r := by
  cases n with
  | zero =>
    cases h
    exact .inl ⟨rfl, rfl⟩
  | succ m =>
    simp only [many] at h
    split at h
    next a u hp =>
      split at h
      next bs v hm =>
        cases h
        exact .inr ⟨a, bs, u, m, rfl, rfl, hp, hm⟩
      next => cases h
      next => cases h
    next =>
      cases h
      exact .inl ⟨rfl, rfl⟩
    next => cases h

theorem Shortens.many (hp : Shortens p) : Shortens (many p n) := by
  induction n with
  | zero =>
    intro t as r h
    cases h
    exact List.suffix_refl _
  | succ n ih =>
    intro t as r h
    rcases of_many_ok h with ⟨-, rfl⟩ | ⟨a, bs, u, m, -, hm, hu, hr⟩
    · exact List.suffix_refl _
    · cases hm
      exact (ih hr).trans (hp hu)

theorem Shortens.list {separator : Parser Unit} (hs : Shortens separator) (hp : Shortens p) :
    Shortens (list n separator p) :=
  hp.bind fun _ => (hs.bind fun _ => hp).many.bind fun _ => .pure _

theorem of_notAhead_ok {t r : List Char} {u : Unit} (h : notAhead p t = .ok u r) :
    p t = .fail ∧ r = t := by
  unfold notAhead at h
  split at h
  next => cases h
  next hp =>
    cases h
    exact ⟨hp, rfl⟩
  next => cases h

theorem Shortens.notAhead : Shortens (notAhead p) := fun _ _ _ h =>
  (of_notAhead_ok h).2 ▸ List.suffix_refl _

theorem Shortens.text (s : String) : Shortens (text s) := fun t _ r h => by
  rw [of_text_ok h]
  exact List.suffix_append _ _

theorem Shortens.symbols (table : List (String × α)) : Shortens (symbols table) := fun t a r h => by
  obtain ⟨s, -, rfl⟩ := of_symbols_ok h
  exact List.suffix_append _ _

/-- What a repetition took was taken one after the other. -/
theorem of_mem_many {t r : List Char} {as : List α} (hp : Shortens p) (h : many p n t = .ok as r) :
    ∀ a ∈ as, ∃ u v, u <:+ t ∧ p u = .ok a v := by
  induction n generalizing t as with
  | zero =>
    cases h
    exact nofun
  | succ n ih =>
    rcases of_many_ok h with ⟨rfl, -⟩ | ⟨a, bs, u, m, rfl, hm, hu, hr⟩
    · exact nofun
    · cases hm
      refine List.forall_mem_cons.mpr ⟨⟨t, u, List.suffix_refl _, hu⟩, fun b hb => ?_⟩
      obtain ⟨v, w, hv, hb⟩ := ih hr b hb
      exact ⟨v, w, hv.trans (hp hu), hb⟩

theorem of_mem_list {t r : List Char} {separator : Parser Unit} {as : List α} (hs : Shortens separator)
    (hp : Shortens p) (h : list n separator p t = .ok as r) : ∀ a ∈ as, ∃ u v, u <:+ t ∧ p u = .ok a v := by
  obtain ⟨a, u, hu, h⟩ := of_bind_ok h
  obtain ⟨bs, v, hv, h⟩ := of_bind_ok h
  cases h
  refine List.forall_mem_cons.mpr ⟨⟨t, u, List.suffix_refl _, hu⟩, fun b hb => ?_⟩
  obtain ⟨w, x, hw, h⟩ := of_mem_many (hs.bind fun _ => hp) hv b hb
  obtain ⟨_, y, hy, h⟩ := of_bind_ok h
  exact ⟨y, x, (hs hy).trans (hw.trans (hp hu)), h⟩

/-- A repetition with fuel for the text goes on until its parser fails. -/
theorem many_ends {t r : List Char} {as : List α} (hp : ∀ ⦃t a r⦄, p t = .ok a r → r.length < t.length)
    (hnil : p [] = .fail) (hn : t.length ≤ n) (h : many p n t = .ok as r) : p r = .fail := by
  induction n generalizing t as with
  | zero =>
    cases h
    rw [List.length_eq_zero_iff.mp (Nat.le_zero.mp hn)]
    exact hnil
  | succ n ih =>
    cases hpt : p t with
    | ok a u =>
      rcases of_many_ok h with ⟨rfl, rfl⟩ | ⟨a', bs, u', m, rfl, hm, hu, hr⟩
      · simp only [many, hpt] at h
        split at h <;> cases h
      · cases hm
        exact ih (Nat.le_of_lt_succ (Nat.lt_of_lt_of_le (hp hu) hn)) hr
    | fail =>
      rw [many_fail hpt] at h
      cases h
      exact hpt
    | abort =>
      rw [many_abort hpt] at h
      cases h

end Shortens

/-! ## What is taken of a text -/

/-- A parser that takes something wherever it takes a text. -/
def Consumes (p : Parser α) : Prop := ∀ ⦃t a r⦄, p t = .ok a r → r.length < t.length

section Consumes

variable {p : Parser α}

theorem Consumes.bind {f : α → Parser β} (hp : Consumes p) (hf : ∀ a, Shortens (f a)) :
    Consumes (p >>= f) := by
  intro t b r h
  obtain ⟨a, u, hu, hr⟩ := of_bind_ok h
  exact Nat.lt_of_le_of_lt (hf a hr).length_le (hp hu)

theorem Shortens.bind_consumes {f : α → Parser β} (hp : Shortens p) (hf : ∀ a, Consumes (f a)) :
    Consumes (p >>= f) := by
  intro t b r h
  obtain ⟨a, u, hu, hr⟩ := of_bind_ok h
  exact Nat.lt_of_lt_of_le (hf a hr) (hp hu).length_le

theorem Consumes.expect (hp : Consumes p) : Consumes p.expect := fun _ _ _ h => hp (of_expect_ok h)

theorem Consumes.firstOf {ps : List (Parser α)} (hp : ∀ p ∈ ps, Consumes p) : Consumes (firstOf ps) := by
  intro t a r h
  obtain ⟨p, hm, hr⟩ := of_firstOf_ok h
  exact hp p hm hr

theorem Consumes.text {s : String} (hs : s.toList ≠ []) : Consumes (text s) := fun t _ r h => by
  rw [of_text_ok h, List.length_append]
  have := List.length_pos_iff.mpr hs
  omega

theorem Consumes.symbols {table : List (String × α)} (ht : ∀ e ∈ table, e.1.toList ≠ []) :
    Consumes (symbols table) := fun t a r h => by
  obtain ⟨s, hs, rfl⟩ := of_symbols_ok h
  have hpos : 0 < s.toList.length := List.length_pos_iff.mpr (ht _ hs)
  rw [List.length_append]
  omega

end Consumes

/-! ## What is made of a text -/

/-- All that a parser makes of a text has `P`. -/
def Gives (p : Parser α) (P : α → Prop) : Prop := ∀ ⦃t a r⦄, p t = .ok a r → P a

section Gives

variable {p : Parser α} {P : α → Prop} {Q : β → Prop} {n : Nat}

theorem Gives.any : Gives p fun _ => True := fun _ _ _ _ => trivial

theorem Gives.mono {P' : α → Prop} (h : Gives p P) (hP : ∀ a, P a → P' a) : Gives p P' :=
  fun _ _ _ ha => hP _ (h ha)

theorem Gives.pure {a : α} (h : P a) : Gives (pure a) P := by
  intro t b r hb
  cases hb
  exact h

theorem Gives.bind {f : α → Parser β} (hp : Gives p P) (hf : ∀ a, P a → Gives (f a) Q) :
    Gives (p >>= f) Q := by
  intro t b r h
  obtain ⟨a, u, ha, hb⟩ := of_bind_ok h
  exact hf a (hp ha) hb

theorem Gives.expect (h : Gives p P) : Gives p.expect P := fun _ _ _ ha => h (of_expect_ok ha)

theorem Gives.firstOf {ps : List (Parser α)} (h : ∀ p ∈ ps, Gives p P) : Gives (firstOf ps) P := by
  intro t a r ha
  obtain ⟨p, hp, ha⟩ := of_firstOf_ok ha
  exact h p hp ha

theorem Gives.option (h : Gives p P) : Gives (option p) fun o => ∀ a ∈ o, P a := by
  intro t o r ho a ha
  rcases of_option_ok ho with ⟨b, rfl, hb⟩ | ⟨rfl, -, -⟩
  · cases ha
    exact h hb
  · cases ha

theorem Gives.many (h : Gives p P) : Gives (many p n) fun as => ∀ a ∈ as, P a := by
  induction n with
  | zero =>
    intro t as r has
    cases has
    exact nofun
  | succ n ih =>
    intro t as r has
    rcases of_many_ok has with ⟨rfl, -⟩ | ⟨a, bs, u, m, rfl, hm, ha, hbs⟩
    · exact nofun
    · cases hm
      exact List.forall_mem_cons.mpr ⟨h ha, ih hbs⟩

theorem Gives.list {separator : Parser Unit} (h : Gives p P) :
    Gives (list n separator p) fun as => ∀ a ∈ as, P a :=
  h.bind fun _ ha => (Gives.many (Gives.any.bind fun _ _ => h)).bind fun _ has =>
    .pure (List.forall_mem_cons.mpr ⟨ha, has⟩)

/-- A list that may be missing. -/
theorem Gives.optional_list {separator : Parser Unit} (h : Gives p P) :
    Gives (Parser.option (Parser.list n separator p)) fun o => ∀ a ∈ o.getD [], P a := by
  refine Gives.mono (Gives.option h.list) fun o ho => ?_
  cases o with
  | none => exact nofun
  | some as => exact ho as rfl

end Gives

end Parser

/-! ## What the end of a text changes nothing of -/

/-- What is made of a text, with `v` after it. -/
def Parsed.append {α : Type} (v : List Char) : Parsed α → Parsed α
  | .ok a r => .ok a (r ++ v)
  | .fail => .fail
  | .abort => .abort

namespace Parser

variable {α β : Type}

/-- Of the texts `P` with `v` after them, `p` makes what `q` makes of the texts alone. -/
def Agrees (v : List Char) (P : List Char → Prop) (p q : Parser α) : Prop :=
  ∀ ⦃u⦄, P u → p (u ++ v) = (q u).append v

/-- Of a text `P`, `p` leaves a text `Q`. -/
def Leads (P Q : List Char → Prop) (p : Parser α) : Prop := ∀ ⦃u a r⦄, P u → p u = .ok a r → Q r

section Agrees

variable {v : List Char} {P Q : List Char → Prop} {p q : Parser α}

theorem Agrees.mono (h : Agrees v Q p q) (hP : ∀ u, P u → Q u) : Agrees v P p q :=
  fun u hu => h (hP u hu)

theorem Agrees.pure (a : α) : Agrees v P (pure a) (pure a) := fun _ _ => rfl

theorem Agrees.fail (hp : ∀ u, P u → p (u ++ v) = .fail) (hq : ∀ u, P u → q u = .fail) :
    Agrees v P p q := fun u hu => by rw [hp u hu, hq u hu, Parsed.append]

theorem Agrees.bind {f g : α → Parser β} (hp : Agrees v P p q) (hq : Leads P Q q)
    (hf : ∀ a, Agrees v Q (f a) (g a)) : Agrees v P (p >>= f) (q >>= g) := by
  intro u hu
  have h := hp hu
  cases hu' : q u with
  | ok a r =>
    rw [hu'] at h
    rw [bind_ok h, bind_ok hu', hf a (hq hu hu')]
  | fail =>
    rw [hu'] at h
    rw [bind_fail h, bind_fail hu', Parsed.append]
  | abort =>
    rw [hu'] at h
    rw [bind_abort h, bind_abort hu', Parsed.append]

theorem Agrees.expect (h : Agrees v P p q) : Agrees v P p.expect q.expect := by
  intro u hu
  rw [Parser.expect, Parser.expect, h hu]
  cases q u <;> rfl

theorem Agrees.option (h : Agrees v P p q) : Agrees v P (option p) (option q) := by
  intro u hu
  rw [Parser.option, Parser.option, h hu]
  cases q u <;> rfl

theorem Agrees.notAhead (h : Agrees v P p q) : Agrees v P (notAhead p) (notAhead q) := by
  intro u hu
  rw [Parser.notAhead, Parser.notAhead, h hu]
  cases q u <;> rfl

theorem Agrees.firstOf {ps qs : List (Parser α)} (h : List.Forall₂ (Agrees v P) ps qs) :
    Agrees v P (firstOf ps) (firstOf qs) := by
  intro u hu
  induction h with
  | nil => rfl
  | @cons p q ps qs hp _ ih =>
    have hp := hp hu
    cases hq : q u with
    | ok a r =>
      rw [hq] at hp
      rw [firstOf_ok hp, firstOf_ok hq, Parsed.append]
    | fail =>
      rw [hq] at hp
      rw [firstOf_fail hp, firstOf_fail hq, ih]
    | abort =>
      rw [hq] at hp
      rw [firstOf_abort hp, firstOf_abort hq, Parsed.append]

/-- The fuels may differ, since what is repeated takes something each time. -/
theorem Agrees.many {k n m : Nat} (hn : k ≤ n) (hm : k ≤ m)
    (h : Agrees v (fun u => P u ∧ u.length ≤ k) p q)
    (hq : ∀ ⦃u a r⦄, P u → q u = .ok a r → P r ∧ r.length < u.length) (hnil : q [] = .fail) :
    Agrees v (fun u => P u ∧ u.length ≤ k) (many p n) (many q m) := by
  induction k generalizing n m with
  | zero =>
    rintro u ⟨hu, hk⟩
    obtain rfl := List.eq_nil_of_length_eq_zero (Nat.le_zero.mp hk)
    have hp := h ⟨hu, hk⟩
    rw [hnil] at hp
    rw [many_fail hp, many_fail hnil, Parsed.append]
  | succ k ih =>
    obtain ⟨n, rfl⟩ : ∃ n', n = n' + 1 := ⟨n - 1, by omega⟩
    obtain ⟨m, rfl⟩ : ∃ m', m = m' + 1 := ⟨m - 1, by omega⟩
    rintro u ⟨hu, hk⟩
    have hp := h ⟨hu, hk⟩
    cases hu' : q u with
    | ok a r =>
      obtain ⟨hr, hlt⟩ := hq hu hu'
      have hrest := ih (Nat.le_of_succ_le_succ hn) (Nat.le_of_succ_le_succ hm)
        (h.mono fun u hu => ⟨hu.1, Nat.le_succ_of_le hu.2⟩) ⟨hr, by omega⟩
      rw [hu'] at hp
      simp only [Parser.many, hp, hu', Parsed.append, hrest]
      cases Parser.many q m r <;> rfl
    | fail =>
      rw [hu'] at hp
      rw [many_fail hp, many_fail hu', Parsed.append]
    | abort =>
      rw [hu'] at hp
      rw [many_abort hp, many_abort hu', Parsed.append]

theorem text_append {u : List Char} {s : String}
    (h : s.toList <+: u ++ v ↔ s.toList <+: u) : text s (u ++ v) = (text s u).append v := by
  by_cases hs : s.toList <+: u
  · obtain ⟨r, rfl⟩ := hs
    rw [text_ok rfl, text_ok (List.append_assoc _ _ _), Parsed.append]
  · rw [text_fail hs, text_fail (mt h.mp hs), Parsed.append]

theorem longest_congr {t t' : List Char} {table : List (String × α)}
    (h : ∀ e ∈ table, (e.1.toList <+: t ↔ e.1.toList <+: t')) : longest t table = longest t' table := by
  induction table with
  | nil => rfl
  | cons e table ih =>
    have he := h e List.mem_cons_self
    have ih := ih fun e' he' => h e' (List.mem_cons_of_mem _ he')
    simp only [longest, ih, List.isPrefixOf_iff_prefix, he]

theorem symbols_append {u : List Char} {table : List (String × α)}
    (h : ∀ e ∈ table, (e.1.toList <+: u ++ v ↔ e.1.toList <+: u)) :
    symbols table (u ++ v) = (symbols table u).append v := by
  rw [symbols, symbols, longest_congr h]
  cases he : longest u table with
  | none => rfl
  | some e =>
    obtain ⟨r, rfl⟩ := (of_longest he).2
    simp only [Parsed.append, List.append_assoc, List.drop_left]

end Agrees

end Parser

end EzCpp.Lib
