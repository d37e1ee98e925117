import EzCpp.Flow.Ast
import Mathlib.Tactic.NormNum

/-!
# The two conversions of durations

`to_std_duration` counts in the ticks of `system_clock::duration`, which are nanoseconds in a signed
64-bit integer, and `to_milliseconds` multiplies without a sign. The first has no room for long
durations, and the second takes the hours of a day for minutes (`converts_iff`).
-/

namespace EzCpp.Flow.Ast

namespace Duration

/-- A `std::chrono` duration with this period, in ticks. A product that overflows is undefined. -/
def ticks (nanoseconds : Nat) (count : UInt64) : Option Int64 :=
  let product := count.toInt64.toInt * nanoseconds
  if -2 ^ 63 ≤ product ∧ product < 2 ^ 63 then some (.ofInt product) else none

/-- `to_std_duration` -/
def toStdDuration (d : Duration) : Option Int64 :=
  match d.unit with
  | .ms => ticks 1000000 d.count
  | .sec => ticks 1000000000 d.count
  | .min => ticks 60000000000 d.count
  | .day => ticks 86400000000000 d.count
  | .week => ticks 604800000000000 d.count

/-- `to_milliseconds` -/
def toMilliseconds (d : Duration) : Int64 :=
  UInt64.toInt64 <| match d.unit with
  | .ms => d.count
  | .sec => d.count * 1000
  | .min => d.count * 1000 * 60
  | .day => d.count * 1000 * 60 * 24
  | .week => d.count * 1000 * 60 * 24 * 7

/-- How many milliseconds a unit is. -/
def milliseconds : DurationUnit → Nat
  | .ms => 1
  | .sec => 1000
  | .min => 60 * 1000
  | .day => 86400 * 1000
  | .week => 604800 * 1000

/-- Both conversions give the length of the duration. -/
structure Converts (d : Duration) : Prop where
  toStdDuration : ∃ t, d.toStdDuration = some t ∧
    t.toInt = d.count.toNat * milliseconds d.unit * 1000000
  toMilliseconds : d.toMilliseconds.toInt = d.count.toNat * milliseconds d.unit

/-- Minutes are few enough for the ticks, and there are neither days nor weeks. -/
def Fits (d : Duration) : Prop :=
  match d.unit with
  | .ms | .sec => True
  | .min => d.count.toNat ≤ 153722867
  | .day | .week => d.count = 0

instance (d : Duration) : Decidable d.Fits := by
  unfold Fits
  cases d.unit <;> infer_instance

variable {n : UInt64} {period : Nat}

theorem toInt_toInt64 (hn : n.toNat < 2 ^ 63) : n.toInt64.toInt = n.toNat := by
  have hbits : n.toInt64.toInt = n.toBitVec.toInt := rfl
  have htoNat : n.toBitVec.toNat = n.toNat := rfl
  rw [hbits, BitVec.toInt_eq_toNat_cond, htoNat, if_pos (by omega)]

theorem ticks_eq (hn : n.toNat < 2 ^ 63) : ticks period n =
    if n.toNat * period < 2 ^ 63 then some (.ofInt (n.toNat * period : Nat)) else none := by
  have hproduct : n.toInt64.toInt * (period : Int) = (n.toNat * period : Nat) := by
    rw [toInt_toInt64 hn, Int.natCast_mul]
  have hiff : (-2 ^ 63 ≤ ((n.toNat * period : Nat) : Int) ∧
      ((n.toNat * period : Nat) : Int) < 2 ^ 63) ↔ n.toNat * period < 2 ^ 63 := by omega
  simp only [ticks, hproduct, hiff]

/-- The ticks are the length, if they fit. -/
theorem ticks_iff (hn : n.toNat < 2 ^ 63) : (∃ t, ticks period n = some t ∧
    t.toInt = (n.toNat * period : Nat)) ↔ n.toNat * period < 2 ^ 63 := by
  rw [ticks_eq hn]
  constructor
  · rintro ⟨t, ht, -⟩
    by_contra hlarge
    rw [if_neg hlarge] at ht
    cases ht
  · intro h
    exact ⟨_, if_pos h, Int64.toInt_ofInt_of_le (by omega) (by omega)⟩

/-- The milliseconds are the length if the factor is right, or there are none. -/
theorem milliseconds_iff {factor length : Nat} (hn : n.toNat < 2 ^ 32) (hfactor : factor < 2 ^ 30) :
    (n * .ofNat factor).toInt64.toInt = (n.toNat * length : Nat) ↔ factor = length ∨ n = 0 := by
  have hof : (UInt64.ofNat factor).toNat = factor := Nat.mod_eq_of_lt (by omega)
  have hle : n.toNat * factor ≤ 2 ^ 32 * 2 ^ 30 :=
    Nat.mul_le_mul (Nat.le_of_lt hn) (Nat.le_of_lt hfactor)
  have hproduct : (n * UInt64.ofNat factor).toNat = n.toNat * factor := by
    rw [UInt64.toNat_mul, hof, Nat.mod_eq_of_lt (by omega)]
  rw [toInt_toInt64 (by omega), hproduct, Int.natCast_inj]
  constructor
  · intro h
    rcases Nat.eq_zero_or_pos n.toNat with hzero | hpos
    · exact .inr (UInt64.toNat_inj.mp hzero)
    · exact .inl (Nat.eq_of_mul_eq_mul_left hpos h)
  · rintro (rfl | rfl)
    · rfl
    · rw [UInt64.toNat_zero, Nat.zero_mul, Nat.zero_mul]

theorem toStdDuration_eq (d : Duration) :
    d.toStdDuration = ticks (milliseconds d.unit * 1000000) d.count := by
  obtain ⟨n, unit⟩ := d
  cases unit <;> norm_num [toStdDuration, milliseconds]

/-- What `to_milliseconds` multiplies by. -/
def factor : DurationUnit → Nat
  | .day => milliseconds .day / 60
  | .week => milliseconds .week / 60
  | unit => milliseconds unit

theorem toMilliseconds_eq (d : Duration) :
    d.toMilliseconds = (d.count * .ofNat (factor d.unit)).toInt64 := by
  obtain ⟨n, unit⟩ := d
  cases unit with
  | ms => exact congrArg UInt64.toInt64 (UInt64.mul_one n).symm
  | _ =>
    simp only [toMilliseconds, UInt64.mul_assoc]
    rfl

/-- **The two conversions agree on the length exactly of milliseconds, of seconds, of the minutes
that fit, and of nothing.** -/
theorem converts_iff (d : Duration) (h : d.count.toNat < 2 ^ 32) : d.Converts ↔ d.Fits := by
  have hstd : (∃ t, d.toStdDuration = some t ∧
      t.toInt = d.count.toNat * milliseconds d.unit * 1000000) ↔
        d.count.toNat * (milliseconds d.unit * 1000000) < 2 ^ 63 := by
    rw [toStdDuration_eq, ← ticks_iff (by omega), Int.natCast_mul, Int.natCast_mul, Int.mul_assoc]
    rfl
  have hmilliseconds : d.toMilliseconds.toInt = d.count.toNat * milliseconds d.unit ↔
      factor d.unit = milliseconds d.unit ∨ d.count = 0 := by
    have hfactor : ∀ unit, factor unit < 2 ^ 30 := fun unit => by cases unit <;> decide
    rw [toMilliseconds_eq, ← milliseconds_iff h (hfactor d.unit), Int.natCast_mul]
  have hconverts : d.Converts ↔ d.count.toNat * (milliseconds d.unit * 1000000) < 2 ^ 63 ∧
      (factor d.unit = milliseconds d.unit ∨ d.count = 0) :=
    ⟨fun hd => ⟨hstd.mp hd.1, hmilliseconds.mp hd.2⟩,
      fun hd => ⟨hstd.mpr hd.1, hmilliseconds.mpr hd.2⟩⟩
  have hzero : d.count = 0 ↔ d.count.toNat = 0 := UInt64.toNat_inj.symm
  rw [hconverts, Fits]
  cases hunit : d.unit with
  | ms | sec =>
    refine iff_of_true ⟨?_, .inl rfl⟩ trivial
    rw [milliseconds]
    omega
  | min =>
    simp only [milliseconds, factor, true_or, and_true]
    omega
  | day | week =>
    simp only [milliseconds, factor, hzero]
    omega

theorem converts_minutes : Converts ⟨153722867, .min⟩ ∧ ¬ Converts ⟨153722868, .min⟩ :=
  ⟨(converts_iff ⟨153722867, .min⟩ (by decide)).mpr (by decide),
    mt (converts_iff ⟨153722868, .min⟩ (by decide)).mp (by decide)⟩

/-- A day is 24 minutes to one of the conversions, and 106752 days are too many for the other. -/
theorem day_differs : ¬ Converts ⟨1, .day⟩ ∧ toStdDuration ⟨106752, .day⟩ = none :=
  ⟨fun h => absurd h.toMilliseconds (by decide), by decide⟩

end Duration

end EzCpp.Flow.Ast
