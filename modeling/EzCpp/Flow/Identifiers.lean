import EzCpp.Flow.Tokens

/-!
# Identifiers and keywords

A keyword is reserved where no identifier begins after it. Digits begin none, though an identifier
goes on with them: a word that is a keyword and then a digit is taken for the keyword, and is no
identifier (`identifier_iff`).
-/

namespace EzCpp.Flow.Grammar

open EzCpp.Lib Ast Parser

variable {t r : List Char} {w : String}

/-- The words that are no keywords. -/
def IsName (w : String) : Prop := Spelled w ∧ w ∉ keywords

/-- The rule matches all of the text. -/
def Accepts (w : String) : Prop := ∃ v, identifier w.toList = .ok v []

/-- A keyword, and a digit next. -/
def KeywordDigit (w : String) : Prop :=
  ∃ kw ∈ keywords, ∃ c r, w.toList = kw.toList ++ c :: r ∧ c.isDigit = true

/-! ## What is reserved -/

/-- No keyword begins with another one. -/
theorem keyword_unique : ∀ kw ∈ keywords, ∀ kw' ∈ keywords,
    kw.toList <+: kw'.toList → kw = kw' := by
  decide +kernel

theorem symbols_keyword {kw : String} (hkw : kw ∈ keywords) :
    symbols keyword (kw.toList ++ r) = .ok () r := by
  have hm : (kw, ()) ∈ keyword := List.mem_map_of_mem hkw
  refine symbols_ok hm (fun _ _ _ => rfl) rfl fun e he hp => ?_
  obtain ⟨kw', hkw', rfl⟩ := List.mem_map.mp he
  rcases List.prefix_or_prefix_of_prefix hp (List.prefix_append _ _) with h | h
  · exact h
  · obtain rfl := keyword_unique kw hkw kw' hkw' h
    exact List.prefix_rfl

theorem identifierBase_eq_fail_iff :
    identifierBase t = .fail ↔ ∀ c ∈ t.head?, startsIdentifier c = false := by
  refine ⟨fun h c hc => ?_, identifierBase_fail⟩
  cases t with
  | nil => cases hc
  | cons d t =>
    cases hc
    by_contra hs
    rw [identifierBase, if_pos (by simpa using hs)] at h
    cases h

/-- Nothing is reserved where every keyword goes on with a letter. -/
theorem reserved_eq_fail_iff (ht : skip t = t) : reserved t = .fail ↔
    ∀ kw ∈ keywords, ∀ r, t = kw.toList ++ r → ∃ c ∈ r.head?, startsIdentifier c = true := by
  have hreserved : reserved t = (do symbols keyword; notAhead identifierBase : Parser Unit) t := by
    show (do symbols keyword; notAhead identifierBase : Parser Unit) (skip t) = _
    rw [ht]
  rw [hreserved]
  constructor
  · rintro h kw hkw r rfl
    rw [bind_ok (symbols_keyword hkw)] at h
    by_contra hnone
    have hbase : identifierBase r = .fail := identifierBase_fail fun c hc => by
      by_contra hs
      exact hnone ⟨c, hc, by simpa using hs⟩
    rw [notAhead, hbase] at h
    cases h
  · intro h
    by_cases hk : Unreserved t
    · exact bind_fail (symbols_fail fun e he => by
        obtain ⟨kw, hkw, rfl⟩ := List.mem_map.mp he
        exact hk kw hkw)
    · obtain ⟨kw, hkw, r, rfl⟩ : ∃ kw ∈ keywords, kw.toList <+: t := by
        simpa [Unreserved] using hk
      obtain ⟨c, hc, hs⟩ := h kw hkw r rfl
      rw [bind_ok (symbols_keyword hkw)]
      cases hb : identifierBase r with
      | ok v u => rw [notAhead, hb]
      | fail =>
        rw [identifierBase_eq_fail_iff.mp hb c hc] at hs
        cases hs
      | abort => exact absurd hb (identifierBase_ne_abort r)

/-! ## What is matched -/

theorem accepts_iff (hw : skip w.toList = w.toList) :
    Accepts w ↔ Spelled w ∧ reserved w.toList = .fail := by
  constructor
  · rintro ⟨v, h⟩
    obtain ⟨ht, hs, -, hr⟩ := of_identifier_ok h
    rw [hw, List.append_nil, String.toList_inj] at ht
    subst ht
    exact ⟨hs, hr⟩
  · rintro ⟨hs, hr⟩
    refine ⟨w, ?_⟩
    have hnot : notAhead reserved w.toList = .ok () w.toList := by rw [notAhead, hr]
    refine (bind_ok hnot).trans ?_
    show identifierBase (skip w.toList) = _
    have hbase := identifierBase_ok (r := []) hs (fun c hc => by cases hc)
    rwa [List.append_nil, ← hw] at hbase

/-- A word that is no keyword has more after a keyword it begins with. -/
theorem goesOn_of_spelled (hs : Spelled w) (hw : w ∉ keywords) {kw : String} (hkw : kw ∈ keywords)
    (h : w.toList = kw.toList ++ r) : ∃ c u, r = c :: u ∧ continuesIdentifier c = true := by
  obtain ⟨d, ds, hd, hstart, hds⟩ := hs
  have hall : ∀ c ∈ w.toList, continuesIdentifier c = true := by
    rw [hd]
    exact List.forall_mem_cons.mpr ⟨continues_of_starts hstart, hds⟩
  cases r with
  | nil =>
    rw [List.append_nil, String.toList_inj] at h
    exact absurd (h ▸ hkw) hw
  | cons c u => exact ⟨c, u, rfl, hall c (by rw [h]; simp)⟩

theorem not_keyword_of_digit (h : KeywordDigit w) : w ∉ keywords := by
  have hall : ∀ kw ∈ keywords, ∀ c ∈ kw.toList, c.isDigit = false := by decide +kernel
  obtain ⟨kw, -, c, r, hw, hc⟩ := h
  intro hmem
  rw [hall w hmem c (by rw [hw]; simp)] at hc
  cases hc

theorem reserved_of_digit (hw : skip w.toList = w.toList) (h : KeywordDigit w) :
    reserved w.toList ≠ .fail := by
  obtain ⟨kw, hkw, c, r, he, hc⟩ := h
  intro hfail
  obtain ⟨d, hd, hs⟩ := (reserved_eq_fail_iff hw).mp hfail kw hkw (c :: r) he
  cases hd
  rw [isDigit_of_starts hs] at hc
  cases hc

/-- **The rule matches exactly the words that are no keywords, but for the words that go on with a
digit after a keyword.** -/
theorem identifier_iff (w : String) (hw : skip w.toList = w.toList) :
    (Accepts w ↔ IsName w) ↔ ¬ (Spelled w ∧ KeywordDigit w) := by
  rw [accepts_iff hw, IsName]
  constructor
  · rintro h ⟨hs, hd⟩
    exact reserved_of_digit hw hd (h.mpr ⟨hs, not_keyword_of_digit hd⟩).2
  · intro hnot
    refine and_congr_right fun hs => ?_
    rw [reserved_eq_fail_iff hw]
    constructor
    · intro h hmem
      obtain ⟨c, hc, -⟩ := h w hmem [] (List.append_nil _).symm
      cases hc
    · intro hk kw hkw r he
      obtain ⟨c, u, rfl, hc⟩ := goesOn_of_spelled hs hk hkw he
      refine ⟨c, rfl, ?_⟩
      have hdigit : c.isDigit = false := by
        by_contra hd
        exact hnot ⟨hs, kw, hkw, c, u, he, by simpa using hd⟩
      simpa [continuesIdentifier, startsIdentifier, Char.isAlphanum, hdigit] using hc

theorem identifier_insider : Accepts "insider" ↔ IsName "insider" := by
  have hall : ∀ c ∈ "insider".toList, c.isDigit = false := by decide +kernel
  refine (identifier_iff "insider" (by decide +kernel)).mpr ?_
  rintro ⟨-, kw, -, c, r, hw, hc⟩
  rw [hall c (by rw [hw]; simp)] at hc
  cases hc

/-- `if1` is a word, and no keyword. -/
theorem if1_rejected : IsName "if1" ∧ ¬ Accepts "if1" := by
  refine ⟨⟨⟨'i', ['f', '1'], by decide +kernel, by decide, by decide⟩, by decide +kernel⟩, ?_⟩
  rintro ⟨v, h⟩
  have hfail : identifier "if1".toList = .fail := by decide +kernel
  rw [hfail] at h
  cases h

end EzCpp.Flow.Grammar
