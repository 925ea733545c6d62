import Lox.Number.Display
import Lox.Proofs.Number.Rounding
import Mathlib.Data.Nat.Cast.Field

/-! Decimals that are read back.

The search for the shortest decimal compares whole multiples of powers of two and ten; what it
compares are the rationals that these stand for. So whatever it finds lies in the rounding interval
that it was asked for, and is read as the number in the middle. An integer that is written with all
its digits is in the middle itself. -/

namespace Lox

/-- The rational that a decimal stands for. -/
def Decimal.value (d : Decimal) : ℚ := d.digits * 10 ^ d.exponent

theorem ten_zpow_eq_div (k : ℤ) :
    (10 : ℚ) ^ k = (Nat.pow 10 k.toNat : ℕ) / (Nat.pow 10 (-k).toNat : ℕ) := by
  exact_mod_cast zpow_eq_div (b := 10) (by norm_num) k

theorem two_zpow_eq_div (k : ℤ) :
    (2 : ℚ) ^ k = (Nat.pow 2 k.toNat : ℕ) / (Nat.pow 2 (-k).toNat : ℕ) := by
  exact_mod_cast zpow_eq_div (b := 2) (by norm_num) k

namespace RoundingInterval

variable (i : RoundingInterval) (place : ℤ)

/-- The common factor of an interval's unit and of the step of a grid. -/
def scale : ℚ := (Nat.pow 2 (-i.exponent).toNat : ℕ) * (Nat.pow 10 (-place).toNat : ℕ)

theorem scale_pos : 0 < i.scale place := by
  simp [scale]

theorem unit_eq : (i.unit place : ℚ) = 2 ^ i.exponent * i.scale place := by
  have hpos : ((Nat.pow 2 (-i.exponent).toNat : ℕ) : ℚ) ≠ 0 := by simp
  rw [unit, scale, two_zpow_eq_div, Nat.cast_mul, ← mul_assoc, div_mul_cancel₀ _ hpos]

theorem step_eq : (i.step place : ℚ) = 10 ^ place * i.scale place := by
  have hpos : ((Nat.pow 10 (-place).toNat : ℕ) : ℚ) ≠ 0 := by simp
  rw [step, scale, ten_zpow_eq_div, Nat.cast_mul, mul_comm, mul_comm ((Nat.pow 2 _ : ℕ) : ℚ),
    ← mul_assoc, div_mul_cancel₀ _ hpos]

variable {i}

theorem unit_le_step (a b : ℕ) : a * i.unit place ≤ b * i.step place ↔
    (a : ℚ) * 2 ^ i.exponent ≤ b * 10 ^ place := by
  rw [← Nat.cast_le (α := ℚ), Nat.cast_mul, Nat.cast_mul, unit_eq, step_eq, ← mul_assoc, ← mul_assoc,
    mul_le_mul_iff_of_pos_right (i.scale_pos place)]

theorem step_le_unit (a b : ℕ) : b * i.step place ≤ a * i.unit place ↔
    (b : ℚ) * 10 ^ place ≤ a * 2 ^ i.exponent := by
  rw [← Nat.cast_le (α := ℚ), Nat.cast_mul, Nat.cast_mul, unit_eq, step_eq, ← mul_assoc, ← mul_assoc,
    mul_le_mul_iff_of_pos_right (i.scale_pos place)]

/-- The comparisons of naturals decide whether a decimal lies in the interval. -/
theorem contains_iff (d : Decimal) : i.contains d = true ↔ i.Holds d.value := by
  have hlower := unit_le_step (i := i) d.exponent i.lower d.digits
  have hupper := step_le_unit (i := i) d.exponent i.upper d.digits
  have hbelow := step_le_unit (i := i) d.exponent i.lower d.digits
  have habove := unit_le_step (i := i) d.exponent i.upper d.digits
  unfold contains Holds Decimal.value
  by_cases hclosed : i.closed = true
  · simp [hclosed, hlower, hupper]
  · have hstrict : i.lower * i.unit d.exponent < d.digits * i.step d.exponent ∧
          d.digits * i.step d.exponent < i.upper * i.unit d.exponent ↔
        (i.lower : ℚ) * 2 ^ i.exponent < d.digits * 10 ^ d.exponent ∧
          (d.digits : ℚ) * 10 ^ d.exponent < i.upper * 2 ^ i.exponent := by
      rw [← not_le, ← not_le, hbelow, habove, not_le, not_le]
    simp only [hclosed, if_false, Bool.false_eq_true, Bool.and_eq_true, decide_eq_true_eq, hstrict,
      false_or]
    constructor
    · intro h
      exact ⟨⟨h.1.le, h.2.le⟩, h⟩
    · exact fun h => h.2

variable {place}

theorem holds_of_onGrid? {d : Decimal} (h : i.onGrid? place = some d) : i.Holds d.value := by
  rw [← contains_iff]
  unfold onGrid? at h
  simp only at h
  split at h
  · rename_i hfloor hceiling
    split at h <;> cases h
    · exact hfloor
    · exact hceiling
  · rename_i hfloor _
    cases h
    exact hfloor
  · rename_i _ hceiling
    cases h
    exact hceiling
  · cases h

/-- A search ends with a decimal of the interval, if it finds one. -/
theorem holds_of_search {grids : ℕ} {d : Decimal} (h : i.search grids place = some d) :
    i.Holds d.value := by
  induction grids generalizing place with
  | zero => cases h
  | succ grids ih =>
    rw [search] at h
    split at h
    · rename_i hgrid
      cases h
      exact holds_of_onGrid? hgrid
    · exact ih h

end RoundingInterval

namespace Number

variable {x : Number} {n d : ℕ}

theorem magnitude_of_zero (hs : x.significand = 0) : x.magnitude = 0 := by
  have hexp := x.exponent_of_subnormal (by omega)
  rw [magnitude_eq, hs, hexp]
  rfl

/-- The ratio that a number is, is read as that number. -/
theorem ofRatio_of_absolute (hfinite : x.isFinite = true) (hd : 0 < d)
    (h : (n : ℚ) / d = x.absolute) : Number.ofRatio n d = x.unsigned := by
  by_cases hs : x.significand = 0
  · have hn : n = 0 := by
      rw [absolute, hs, Nat.cast_zero, zero_mul, div_eq_zero_iff] at h
      rcases h with h | h
      · exact_mod_cast h
      · exact absurd h (by exact_mod_cast hd.ne')
    rw [ofRatio, if_pos hn, unsigned, magnitude_of_zero hs]
    rfl
  · exact ofRatio_of_holds hfinite hs hd (h ▸ holds_absolute hs)

theorem value_exactDecimal (x : Number) : x.exactDecimal.value = x.absolute := by
  unfold exactDecimal Decimal.value absolute
  cases hexp : x.exponent with
  | ofNat k => simp
  | negSucc k =>
    have hmin : min 0 (Int.negSucc k) = Int.negSucc k := by omega
    have hneg : (-Int.negSucc k).toNat = k + 1 := by omega
    have hten : (10 : ℚ) ^ (k + 1) = 2 ^ (k + 1) * 5 ^ (k + 1) := by
      rw [← mul_pow]
      norm_num
    simp only [hmin, hneg, Int.toNat_negSucc, Nat.pow_eq, zpow_negSucc, hten]
    push_cast
    field_simp

theorem holds_shortestDecimal (hs : x.significand ≠ 0) :
    x.roundingInterval.Holds x.shortestDecimal.value := by
  unfold shortestDecimal
  cases hsearch : x.roundingInterval.search 24 x.topPlace with
  | none =>
    rw [Option.getD_none, value_exactDecimal]
    exact holds_absolute hs
  | some d => exact RoundingInterval.holds_of_search hsearch

/-- An integral number is the natural that it is rounded down to. -/
theorem absolute_of_isIntegral (h : x.isIntegral = true) : x.absolute = x.whole := by
  have hdvd : Nat.pow 2 (-x.exponent).toNat ∣ x.significand * Nat.pow 2 x.exponent.toNat := by
    rw [isIntegral, Bool.and_eq_true, beq_iff_eq] at h
    exact Dvd.dvd.mul_right (Nat.dvd_of_mod_eq_zero h.2) _
  have hpos : ((Nat.pow 2 (-x.exponent).toNat : ℕ) : ℚ) ≠ 0 := by simp
  rw [absolute, two_zpow_eq_div, whole, Nat.cast_div hdvd hpos, Nat.cast_mul, mul_div_assoc]

end Number

namespace Decimal

variable {x : Number} {d : Decimal}

theorem ratio_eq_value (d : Decimal) : ((d.digits * Nat.pow 10 d.exponent.toNat : ℕ) : ℚ) /
    (Nat.pow 10 (-d.exponent).toNat : ℕ) = d.value := by
  rw [value, ten_zpow_eq_div, Nat.cast_mul, mul_div_assoc]

/-- A decimal in the rounding interval of a number is read as that number. -/
theorem nearest_of_holds (hfinite : x.isFinite = true) (hs : x.significand ≠ 0)
    (h : x.roundingInterval.Holds d.value) : d.nearest = x.unsigned := by
  rw [← ratio_eq_value] at h
  exact Number.ofRatio_of_holds hfinite hs (Nat.pow_pos (by norm_num)) h

theorem nearest_of_absolute (hfinite : x.isFinite = true) (h : d.value = x.absolute) :
    d.nearest = x.unsigned := by
  rw [← ratio_eq_value] at h
  exact Number.ofRatio_of_absolute hfinite (Nat.pow_pos (by norm_num)) h

end Decimal

end Lox
