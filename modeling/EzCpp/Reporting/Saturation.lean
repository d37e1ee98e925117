import EzCpp.Reporting.Propagation

/-!
# Progress values are narrowed before they are clamped

A progress is clamped to 100 when it is stored, but what is clamped is an `unsigned char`: an `int`
is taken modulo 256 first, and `set_progress(current, total)` multiplies in 64 bits before it
divides. `Narrows` and `Divides` say which values come through (`saturates_iff`).
-/

namespace EzCpp.Reporting

namespace ExecutionProgress

/-- `operator=(value_type)` -/
def ofValue (value : UInt8) : ExecutionProgress := ⟨min value.toNat 100, by omega⟩

/-- `ExecutionProgress(int)` -/
def ofInt (value : Int32) : ExecutionProgress := ofValue value.toUInt32.toUInt8

/-- The percentage, as the `int` it is passed on as. -/
def percentage (current total : UInt64) : Int32 := (current * 100 / total).toUInt32.toInt32

/-- What saturation means. -/
def saturated (v : Int) : Int := max 0 (min 100 v)

/-- The last byte of the value clamps to what the value clamps to. -/
def Narrows (v : Int) : Prop :=
  (0 ≤ v ∧ v < 256) ∨ (256 ≤ v ∧ 100 ≤ v % 256) ∨ (v < 0 ∧ v % 256 = 0)

/-- Below the total, the product fits; from there on, the quotient of what is left of it has a last
byte of at least 100. -/
def Divides (current total : Nat) : Prop :=
  if current < total then 100 * current < 2 ^ 64
  else 100 ≤ 100 * current % 2 ^ 64 / total % 256
deriving Decidable

/-! ## What is stored -/

theorem ofInt_val (v : Int32) : ((ofInt v).val : Int) = min (v.toInt % 256) 100 := by
  have hbyte : (v.toUInt32.toUInt8.toNat : Int) = v.toInt % 256 := by
    have hv : v.toInt = v.toBitVec.toInt := rfl
    rw [UInt32.toNat_toUInt8, hv, BitVec.toInt_eq_toNat_cond]
    show ((v.toBitVec.toNat % 2 ^ 8 : Nat) : Int) = _
    split <;> omega
  show ((min v.toUInt32.toUInt8.toNat 100 : Nat) : Int) = _
  omega

theorem ofInt_saturated_iff (v : Int32) :
    ((ofInt v).val : Int) = saturated v.toInt ↔ Narrows v.toInt := by
  rw [ofInt_val, saturated, Narrows]
  omega

/-- The last byte of the quotient survives both conversions. -/
theorem ofInt_percentage (current total : UInt64) : (ofInt (percentage current total)).val =
    min (100 * current.toNat % 2 ^ 64 / total.toNat % 256) 100 := by
  have hbyte : (percentage current total).toUInt32.toUInt8.toNat =
      100 * current.toNat % 2 ^ 64 / total.toNat % 256 := by
    have hquotient : (current * 100 / total).toNat =
        100 * current.toNat % 2 ^ 64 / total.toNat := by
      rw [UInt64.toNat_div, UInt64.toNat_mul, Nat.mul_comm]
      rfl
    show (current * 100 / total).toUInt32.toUInt8.toNat = _
    rw [UInt32.toNat_toUInt8, UInt64.toNat_toUInt32, hquotient]
    omega
  show min (percentage current total).toUInt32.toUInt8.toNat 100 = _
  rw [hbyte]

/-- Where the product does not fit, a quotient below 100 is not what is left. -/
theorem div_of_wrapped {m t : Nat} (ht : 0 < t) (htm : t ≤ 2 ^ 64) (hm : 2 ^ 64 ≤ m) :
    m % 2 ^ 64 / t < m / t := by
  have hle : m % 2 ^ 64 + t ≤ m := by omega
  have hsucc : m % 2 ^ 64 / t + 1 = (m % 2 ^ 64 + t) / t := (Nat.add_div_right _ ht).symm
  have := Nat.div_le_div_right (c := t) hle
  omega

theorem ofInt_percentage_iff (current total : UInt64) (ht : total ≠ 0) :
    (ofInt (percentage current total)).val = min 100 (100 * current.toNat / total.toNat) ↔
      Divides current.toNat total.toNat := by
  have hpos : 0 < total.toNat := Nat.pos_of_ne_zero fun h => ht (UInt64.toNat_inj.mp h)
  have hlt : total.toNat < 2 ^ 64 := total.toNat_lt
  rw [ofInt_percentage, Divides]
  split
  next hbelow =>
    have hsmall : 100 * current.toNat / total.toNat < 100 :=
      Nat.div_lt_of_lt_mul (by omega)
    constructor
    · intro h
      by_contra hwrapped
      have hless := div_of_wrapped hpos (Nat.le_of_lt hlt) (Nat.le_of_not_lt hwrapped)
      generalize 100 * current.toNat % 2 ^ 64 / total.toNat = left at h hless
      generalize 100 * current.toNat / total.toNat = quotient at h hless hsmall
      omega
    · intro hfits
      rw [Nat.mod_eq_of_lt hfits]
      generalize 100 * current.toNat / total.toNat = quotient at hsmall ⊢
      omega
  next habove =>
    have hlarge : 100 ≤ 100 * current.toNat / total.toNat := by
      rw [Nat.le_div_iff_mul_le hpos]
      omega
    generalize 100 * current.toNat / total.toNat = quotient at hlarge ⊢
    omega

end ExecutionProgress

namespace Reports

open ExecutionProgress Progressing

variable {rs rs' : Reports} {r : ReportId}

/-- `set_progress(size_t, size_t)` -/
def setProgressOf (rs : Reports) (r : ReportId) (current total : UInt64) : Option Reports :=
  if total = 0 then some rs else rs.setProgress r (.ofInt (percentage current total))

/-- The report has the progress it is given. -/
theorem Forest.setProgress_own (hf : rs.Forest) (hb : rs.Bounded) (r : ReportId)
    (p : ExecutionProgress) :
    ∃ rs', rs.setProgress r p = some rs' ∧ (rs'.data r).progress = p := by
  by_cases hp : (rs.data r).progress = p
  · exact ⟨rs, if_pos hp, hp⟩
  · obtain ⟨rs', hrs, h⟩ := hf.setProgress_spec hb r hp
    exact ⟨rs', hrs, (h.prescribed hf).2.own⟩

/-- Afterwards the report shows how much of the total the current value is. -/
def ShowsQuotient (rs : Reports) (r : ReportId) (current total : UInt64) : Prop :=
  ∃ rs', rs.setProgressOf r current total = some rs' ∧
    (rs'.data r).progress.val = min 100 (100 * current.toNat / total.toNat)

theorem showsQuotient_iff (hf : rs.Forest) (hb : rs.Bounded) (current : UInt64) {total : UInt64}
    (ht : total ≠ 0) :
    rs.ShowsQuotient r current total ↔ Divides current.toNat total.toNat := by
  obtain ⟨rs', hrs, hown⟩ := hf.setProgress_own hb r (.ofInt (percentage current total))
  rw [← ofInt_percentage_iff current total ht, ← hown, ShowsQuotient, setProgressOf, if_neg ht, hrs]
  constructor
  · rintro ⟨rs'', he, h⟩
    cases he
    exact h
  · exact fun h => ⟨rs', rfl, h⟩

/-- The progress that is shown does not go back. -/
def Monotone (rs : Reports) (r : ReportId) (total : UInt64) (P : UInt64 → Prop) : Prop :=
  ∀ current current' rs₁ rs₂, current ≤ current' → P current → P current' →
    rs.setProgressOf r current total = some rs₁ → rs.setProgressOf r current' total = some rs₂ →
    (rs₁.data r).progress ≤ (rs₂.data r).progress

theorem monotone_quotient (total : UInt64) :
    rs.Monotone r total (rs.ShowsQuotient r · total) := by
  intro current current' rs₁ rs₂ hle ⟨rs₁', h₁, hp⟩ ⟨rs₂', h₂, hp'⟩ he₁ he₂
  cases h₁.symm.trans he₁
  cases h₂.symm.trans he₂
  rw [Fin.le_def, hp, hp']
  have hdiv : 100 * current.toNat / total.toNat ≤ 100 * current'.toNat / total.toNat :=
    Nat.div_le_div_right (Nat.mul_le_mul_left 100 hle)
  omega

/-- **An `int` saturates exactly when it narrows to what it clamps to, and a quotient exactly when
neither its product nor its last byte wraps; among these the progress is monotone.** -/
theorem saturates_iff (rs : Reports) (hf : rs.Forest) (hb : rs.Bounded) (r : ReportId) :
    (∀ v : Int32, ((ofInt v).val : Int) = saturated v.toInt ↔ Narrows v.toInt) ∧
    (∀ current total : UInt64, total ≠ 0 →
      (rs.ShowsQuotient r current total ↔ Divides current.toNat total.toNat)) ∧
    ∀ total : UInt64, total ≠ 0 →
      rs.Monotone r total fun current => Divides current.toNat total.toNat := by
  refine ⟨ofInt_saturated_iff, fun current total ht => showsQuotient_iff hf hb current ht,
    fun total ht => ?_⟩
  have hiff : (fun current : UInt64 => Divides current.toNat total.toNat) =
      fun current => rs.ShowsQuotient r current total :=
    funext fun current => propext (showsQuotient_iff hf hb current ht).symm
  rw [hiff]
  exact monotone_quotient total

theorem saturates_three : three.ShowsQuotient 2 255 100 ∧ ¬ three.ShowsQuotient 2 256 100 := by
  obtain ⟨-, h, -⟩ := saturates_iff three three_forest three_bounded 2
  exact ⟨(h 255 100 (by decide)).mpr (by decide), mt (h 256 100 (by decide)).mp (by decide)⟩

/-- 256 is stored as 0, and 13 of 5 as 4. -/
theorem overshoot_wraps : ((ofInt 256).val : Int) ≠ saturated 256 ∧
    ¬ empty.new.ShowsQuotient 0 13 5 := by
  refine ⟨by decide, ?_⟩
  rintro ⟨rs', h, hp⟩
  cases h
  revert hp
  decide

end Reports

end EzCpp.Reporting
