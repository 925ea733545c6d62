import Lox.Proofs.Number.Shortest

/-! The double nearest to a rational.

What nearest means is said of all finite doubles at once, without grids and binades: none is nearer,
one that is as near is the one with the odd significand, and from half a step above the greatest
finite double on there is infinity instead. That leaves one double for each rational, and it is the
one that a ratio is rounded to. -/

namespace Lox

section Grid

variable {q : ℚ} {e : ℤ} {s : ℕ}

theorem OnGrid.significand_le (hgrid : OnGrid q e) (hs : RoundsTo (q / 2 ^ e) s) :
    s ≤ 2 ^ 53 := by
  have hunit : (0 : ℚ) < 2 ^ e := by positivity
  have hlt : q / 2 ^ e < 2 ^ 53 := by
    rw [div_lt_iff₀ hunit, ← Number.two_zpow_add]
    exact hgrid.below
  have hless : (s : ℚ) < 2 ^ 53 + 1 := by
    have := (abs_le.mp hs.near).1
    linarith
  have : s < 2 ^ 53 + 1 := by exact_mod_cast hless
  omega

/-- Only on the lowest grid a significand is short. -/
theorem OnGrid.le_significand (hgrid : OnGrid q e) (hs : RoundsTo (q / 2 ^ e) s) :
    e = -1074 ∨ 2 ^ 52 ≤ s := by
  have hunit : (0 : ℚ) < 2 ^ e := by positivity
  refine hgrid.above.imp_right fun habove => ?_
  have hle : 2 ^ 52 ≤ q / 2 ^ e := by
    rw [le_div_iff₀ hunit, ← Number.two_zpow_add]
    exact habove
  have hless : (2 : ℚ) ^ 52 < s + 1 := by
    have := (abs_le.mp hs.near).2
    linarith
  have : 2 ^ 52 < s + 1 := by exact_mod_cast hless
  omega

/-- The middle between the greatest finite double and the next power of two. -/
theorem overflow_eq : (2 : ℚ) ^ 1024 - 2 ^ 970 = (2 ^ 53 - 1 / 2) * 2 ^ (971 : ℤ) := by
  have hpow : (2 : ℚ) ^ (971 : ℤ) = 2 * 2 ^ 970 := by rw [zpow_ofNat, ← pow_succ']
  have hnext : (2 : ℚ) ^ 1024 = 2 ^ 53 * (2 * 2 ^ 970) := by rw [← pow_succ', ← pow_add]
  rw [hpow, hnext, sub_mul, one_div, inv_mul_cancel_left₀ two_ne_zero]

/-- Below the highest grid there are only numbers that stay finite. -/
theorem OnGrid.lt_overflow (hgrid : OnGrid q e) (he : e < 971) : q < 2 ^ 1024 - 2 ^ 970 := by
  calc q < 2 ^ (e + 53) := hgrid.below
    _ ≤ 2 ^ (1023 : ℤ) := zpow_le_zpow_right₀ one_le_two (by omega)
    _ = (2 ^ 52) * 2 ^ (971 : ℤ) := Number.two_zpow_add 971 52
    _ < (2 ^ 53 - 1 / 2) * 2 ^ (971 : ℤ) := by
      refine mul_lt_mul_of_pos_right ?_ (by positivity)
      norm_num
    _ = 2 ^ 1024 - 2 ^ 970 := overflow_eq.symm

/-- Above the highest grid there are none. -/
theorem OnGrid.overflow_le (hgrid : OnGrid q e) (he : 971 < e) : 2 ^ 1024 - 2 ^ 970 ≤ q := by
  have habove := hgrid.above.resolve_left (by omega)
  calc (2 : ℚ) ^ 1024 - 2 ^ 970 ≤ 2 ^ (1024 : ℤ) := sub_le_self _ (by positivity)
    _ ≤ 2 ^ (e + 52) := zpow_le_zpow_right₀ one_le_two (by omega)
    _ ≤ q := habove

/-- From the middle before an even natural on, it or a greater one is what is rounded to. -/
theorem RoundsTo.lt_iff (hs : RoundsTo q s) {n : ℕ} (hn : n % 2 = 0) :
    s < n ↔ q < n - 1 / 2 := by
  have hnear := abs_le.mp hs.near
  constructor
  · intro hlt
    have hle : (s : ℚ) + 1 ≤ n := by exact_mod_cast hlt
    rcases hs.even with heven | hless
    · -- Between two even naturals there is an odd one.
      have hnext : (s : ℚ) + 2 ≤ n := by exact_mod_cast (by omega : s + 2 ≤ n)
      linarith
    · have := (abs_lt.mp hless).2
      linarith
  · intro hlt
    have hless : (s : ℚ) < n := by linarith
    exact_mod_cast hless

/-- A pattern is that of a finite double up to the middle between the greatest of them and the next
power of two. -/
theorem pattern_lt_infinity_iff (hgrid : OnGrid q e) (hs : RoundsTo (q / 2 ^ e) s) :
    pattern e s < Number.infinity ↔ q < 2 ^ 1024 - 2 ^ 970 := by
  have hpow : Nat.pow 2 52 = 4503599627370496 := rfl
  have hle := hgrid.significand_le hs
  have hge := hgrid.le_significand hs
  have hleast := hgrid.least
  rw [pattern, Number.infinity, hpow]
  rcases lt_trichotomy e 971 with hlow | rfl | hhigh
  · exact iff_of_true (by omega) (hgrid.lt_overflow hlow)
  · -- On the highest grid the last significand is one too long.
    have hunit : (0 : ℚ) < 2 ^ (971 : ℤ) := by positivity
    have hlast : s < 2 ^ 53 ↔ q / 2 ^ (971 : ℤ) < 2 ^ 53 - 1 / 2 := by
      have h := hs.lt_iff (n := 2 ^ 53) rfl
      rwa [Nat.cast_pow, Nat.cast_ofNat] at h
    rw [overflow_eq, ← div_lt_iff₀ hunit, ← hlast]
    omega
  · exact iff_of_false (by omega) (not_lt.mpr (hgrid.overflow_le hhigh))

end Grid

namespace Number

/-- A finite number. -/
def value (x : Number) : ℚ := if x.negative then -x.absolute else x.absolute

/-- The double that stands for a rational without a sign: the nearest of all finite ones, and of two
that are as near the even one; infinity from half a step above the greatest finite one on. -/
structure NearestTo (q : ℚ) (x : Number) : Prop where
  positive : x.negative = false
  infinite : x = ⟨UInt64.ofNat infinity⟩ ↔ 2 ^ 1024 - 2 ^ 970 ≤ q
  finite : q < 2 ^ 1024 - 2 ^ 970 → x.isFinite = true
  nearest : q < 2 ^ 1024 - 2 ^ 970 → ∀ y : Number, y.isFinite = true →
    |x.value - q| ≤ |y.value - q|
  even : q < 2 ^ 1024 - 2 ^ 970 → ∀ y : Number, y.isFinite = true → y.value ≠ x.value →
    |y.value - q| = |x.value - q| → x.significand % 2 = 0

section Patterns

variable {x y : Number} {e : ℤ} {s p : ℕ}

theorem magnitude_of_le_infinity (h : p ≤ infinity) :
    Number.magnitude ⟨UInt64.ofNat p⟩ = p := by
  have hinfinity : infinity < 2 ^ 63 := by decide
  have hsize : p < 2 ^ 64 := by omega
  have hbits : (UInt64.ofNat p).toNat = p := UInt64.toNat_ofNat_of_lt' hsize
  rw [magnitude, hbits]
  exact Nat.mod_eq_of_lt (lt_of_le_of_lt h hinfinity)

/-- The significand and the exponent are read off the pattern. -/
theorem of_pattern (hle : -1074 ≤ e) (hs : s < 2 ^ 53) (hge : e = -1074 ∨ 2 ^ 52 ≤ s)
    (h : x.magnitude = pattern e s) : x.significand = s ∧ x.exponent = e := by
  have hpow : Nat.pow 2 52 = 4503599627370496 := rfl
  rw [pattern, hpow] at h
  unfold significand exponent
  simp only [hpow]
  constructor
  · split <;> omega
  · split <;> omega

/-- A significand that is one too long is an even one of the next binade. -/
theorem absolute_of_pattern (hle : -1074 ≤ e) (hs : s ≤ 2 ^ 53) (hge : e = -1074 ∨ 2 ^ 52 ≤ s)
    (h : x.magnitude = pattern e s) :
    x.absolute = s * 2 ^ e ∧ x.significand % 2 = s % 2 := by
  rcases Nat.lt_or_eq_of_le hs with hlt | rfl
  · obtain ⟨hsignificand, hexponent⟩ := of_pattern hle hlt hge h
    rw [absolute, hsignificand, hexponent]
    exact ⟨rfl, rfl⟩
  · have hcarry : pattern e (2 ^ 53) = pattern (e + 1) (2 ^ 52) := by
      have hpow : Nat.pow 2 52 = 4503599627370496 := rfl
      rw [pattern, pattern, hpow]
      omega
    obtain ⟨hsignificand, hexponent⟩ :=
      of_pattern (by omega) (by norm_num) (.inr (Nat.le_refl _)) (h.trans hcarry)
    rw [absolute, hsignificand, hexponent, zpow_add_one₀ two_ne_zero]
    constructor
    · push_cast
      ring
    · norm_num

theorem value_of_positive (h : x.negative = false) : x.value = x.absolute := by
  rw [value, h]
  rfl

/-- A finite number is that of its absolute value and its sign. -/
theorem eq_of_absolute (hx : x.isFinite = true) (hy : y.isFinite = true)
    (hxs : x.negative = false) (hys : y.negative = false) (h : x.absolute = y.absolute) :
    x = y := by
  have hratio : ((x.significand * Nat.pow 2 x.exponent.toNat : ℕ) : ℚ) /
      (Nat.pow 2 (-x.exponent).toNat : ℕ) = x.absolute := by
    rw [absolute, two_zpow_eq_div, Nat.cast_mul, mul_div_assoc]
  have hpos : 0 < Nat.pow 2 (-x.exponent).toNat := Nat.two_pow_pos _
  calc x = x.unsigned := (unsigned_of_positive hxs).symm
    _ = Number.ofRatio _ _ := (ofRatio_of_absolute hx hpos hratio).symm
    _ = y.unsigned := ofRatio_of_absolute hy hpos (hratio.trans h)
    _ = y := unsigned_of_positive hys

end Patterns

section Nearness

variable {x y : Number} {q : ℚ} {e : ℤ} {s n d : ℕ}

/-- A number of this binade or a higher one is a multiple of the step, an even one if its
significand is even. -/
theorem value_on_grid (he : e ≤ y.exponent) :
    ∃ m : ℤ, y.value = m * 2 ^ e ∧ (y.significand % 2 = 0 → m % 2 = 0) := by
  obtain ⟨k, hk⟩ := Int.eq_ofNat_of_zero_le (sub_nonneg.mpr he)
  have hexp : y.exponent = e + k := by omega
  have habsolute : y.absolute = ((y.significand * 2 ^ k : ℤ) : ℚ) * 2 ^ e := by
    rw [absolute, hexp, two_zpow_add]
    push_cast
    ring
  have heven : y.significand % 2 = 0 → (y.significand * 2 ^ k : ℤ) % 2 = 0 := by
    intro h
    rw [Int.mul_emod, (by exact_mod_cast h : (y.significand : ℤ) % 2 = 0), zero_mul,
      Int.zero_emod]
  cases hsign : y.negative with
  | false => exact ⟨_, by rw [value, hsign]; exact habsolute, heven⟩
  | true =>
    refine ⟨-(y.significand * 2 ^ k), ?_, fun h => ?_⟩
    · rw [value, hsign, if_pos rfl, habsolute]
      push_cast
      ring
    · have := heven h
      omega

/-- A number of a lower binade is below this one. -/
theorem value_below (he : y.exponent < e) : y.value < 2 ^ (e + 52) := by
  have hsig : (y.significand : ℚ) < 2 ^ 53 := by exact_mod_cast y.significand_lt
  have hunit : (0 : ℚ) < 2 ^ y.exponent := by positivity
  have habsolute : y.absolute < 2 ^ (e + 52) := by
    calc y.absolute < 2 ^ 53 * 2 ^ y.exponent := mul_lt_mul_of_pos_right hsig hunit
      _ = 2 ^ (y.exponent + 53) := (two_zpow_add y.exponent 53).symm
      _ ≤ 2 ^ (e + 52) := zpow_le_zpow_right₀ one_le_two (by omega)
  have hpos : 0 ≤ y.absolute := by
    unfold absolute
    positivity
  rw [value]
  split <;> linarith

/-- No number is nearer than the multiple that a rational is rounded to on its grid. One that is as
near has an odd significand, and the multiple is even. -/
theorem compare_rounded (hgrid : OnGrid q e) (hs : RoundsTo (q / 2 ^ e) s) (y : Number) :
    |s * 2 ^ e - q| < |y.value - q| ∨ y.value = s * 2 ^ e ∨
      (|y.value - q| = |s * 2 ^ e - q| ∧ s % 2 = 0 ∧ y.significand % 2 = 1) := by
  have hunit : (0 : ℚ) < 2 ^ e := by positivity
  have hscaled : ∀ a : ℚ, |a * 2 ^ e - q| = |q / 2 ^ e - a| * 2 ^ e := by
    intro a
    rw [← abs_of_pos hunit, ← abs_mul, sub_mul, abs_of_pos hunit, div_mul_cancel₀ _ hunit.ne',
      abs_sub_comm]
  rcases le_or_gt e y.exponent with he | he
  · obtain ⟨m, hm, heven⟩ := value_on_grid he
    rw [hm, hscaled, hscaled]
    rcases hs.compare m with hlt | rfl | ⟨heq, hsame, hodd⟩
    · exact .inl (mul_lt_mul_of_pos_right hlt hunit)
    · exact .inr (.inl (by rw [Int.cast_natCast]))
    · refine .inr (.inr ⟨by rw [heq], hsame, ?_⟩)
      by_contra hne
      have := heven (by omega)
      omega
  · -- The bottom of the binade lies in between, and it is on the grid.
    have hleast := y.exponent_ge
    have hbottom := hgrid.above.resolve_left (by omega)
    have hbelow := value_below he
    left
    have hnearer : |(s : ℚ) * 2 ^ e - q| ≤ |(2 : ℚ) ^ 52 * 2 ^ e - q| := by
      rw [hscaled, hscaled]
      refine mul_le_mul_of_nonneg_right ?_ hunit.le
      have hpower : ((2 ^ 52 : ℤ) : ℚ) = 2 ^ 52 := by norm_num
      rw [← hpower]
      rcases hs.compare (2 ^ 52) with hlt | heq | ⟨heq, -, -⟩
      · exact hlt.le
      · rw [heq, Int.cast_natCast]
      · exact heq.ge
    rw [← two_zpow_add e 52] at hnearer
    push_cast at hnearer
    rw [abs_sub_comm ((2 : ℚ) ^ (e + 52)), abs_of_nonneg (sub_nonneg.mpr hbottom)] at hnearer
    rw [abs_sub_comm y.value, abs_of_pos (sub_pos.mpr (lt_of_lt_of_le hbelow hbottom))]
    linarith

/-- A ratio below the overflow is rounded to a finite double on its grid. -/
theorem ofRatio_of_small (hn : 0 < n) (hd : 0 < d) (hgrid : OnGrid ((n : ℚ) / d) e)
    (hs : RoundsTo ((n : ℚ) / d / 2 ^ e) s) (hsmall : (n : ℚ) / d < 2 ^ 1024 - 2 ^ 970) :
    (Number.ofRatio n d).isFinite = true ∧ (Number.ofRatio n d).value = s * 2 ^ e ∧
      (Number.ofRatio n d).significand % 2 = s % 2 := by
  have hlt := (pattern_lt_infinity_iff hgrid hs).mpr hsmall
  have hmagnitude := magnitude_of_le_infinity hlt.le
  obtain ⟨habsolute, hparity⟩ := absolute_of_pattern hgrid.least (hgrid.significand_le hs)
    (hgrid.le_significand hs) hmagnitude
  rw [ofRatio_eq hn hd hgrid hs, Nat.min_eq_right hlt.le]
  refine ⟨?_, ?_, hparity⟩
  · rw [isFinite, hmagnitude]
    exact decide_eq_true hlt
  · rw [value_of_positive (negative_of_le_infinity hlt.le), habsolute]

theorem value_ofRatio_zero (d : ℕ) : (Number.ofRatio 0 d).value = 0 := by
  have hvalue : Number.value ⟨0⟩ = 0 := by
    rw [value_of_positive (by decide), absolute, show Number.significand ⟨0⟩ = 0 by decide]
    norm_num
  rw [ofRatio, if_pos rfl, hvalue]

theorem isFinite_ofRatio (hd : 0 < d) (hsmall : (n : ℚ) / d < 2 ^ 1024 - 2 ^ 970) :
    (Number.ofRatio n d).isFinite = true := by
  rcases Nat.eq_zero_or_pos n with rfl | hn
  · rw [ofRatio, if_pos rfl]
    decide
  · obtain ⟨e, s, hgrid, hs⟩ := exists_grid hn hd
    exact (ofRatio_of_small hn hd hgrid hs hsmall).1

theorem ofRatio_of_large (hd : 0 < d) (hlarge : 2 ^ 1024 - 2 ^ 970 ≤ (n : ℚ) / d) :
    Number.ofRatio n d = ⟨UInt64.ofNat infinity⟩ := by
  have hn : 0 < n := by
    rcases Nat.eq_zero_or_pos n with rfl | hn
    · rw [Nat.cast_zero, zero_div, sub_nonpos] at hlarge
      exact absurd hlarge (not_le.mpr (pow_lt_pow_right₀ one_lt_two (by norm_num)))
    · exact hn
  obtain ⟨e, s, hgrid, hs⟩ := exists_grid hn hd
  have hge := not_lt.mp (mt (pattern_lt_infinity_iff hgrid hs).mp (not_lt.mpr hlarge))
  rw [ofRatio_eq hn hd hgrid hs, Nat.min_eq_left hge]

/-- A double is farther away than the one that a ratio is rounded to, or has its value, or is as far
and odd, while that one is even. -/
theorem compare_ofRatio (hd : 0 < d) (hsmall : (n : ℚ) / d < 2 ^ 1024 - 2 ^ 970) (y : Number) :
    |(Number.ofRatio n d).value - (n : ℚ) / d| < |y.value - (n : ℚ) / d| ∨
      y.value = (Number.ofRatio n d).value ∨
      (|y.value - (n : ℚ) / d| = |(Number.ofRatio n d).value - (n : ℚ) / d| ∧
        (Number.ofRatio n d).significand % 2 = 0 ∧ y.significand % 2 = 1) := by
  rcases Nat.eq_zero_or_pos n with rfl | hn
  · rw [value_ofRatio_zero, Nat.cast_zero, zero_div, sub_zero, sub_zero, abs_zero, abs_pos]
    by_cases hy : y.value = 0
    · exact .inr (.inl hy)
    · exact .inl hy
  · obtain ⟨e, s, hgrid, hs⟩ := exists_grid hn hd
    obtain ⟨-, hvalue, hparity⟩ := ofRatio_of_small hn hd hgrid hs hsmall
    rw [hvalue, hparity]
    exact compare_rounded hgrid hs y

theorem nearestTo_ofRatio (hd : 0 < d) : (Number.ofRatio n d).NearestTo ((n : ℚ) / d) := by
  have hfinite := isFinite_ofRatio (n := n) hd
  refine ⟨negative_ofRatio n d, ⟨fun h => ?_, ofRatio_of_large hd⟩, hfinite,
    fun hsmall y _ => ?_, fun hsmall y _ hne heq => ?_⟩
  · by_contra hsmall
    have hf := hfinite (not_le.mp hsmall)
    rw [h] at hf
    exact absurd hf (by decide)
  · rcases compare_ofRatio hd hsmall y with hfar | hsame | ⟨heq, -, -⟩
    · exact hfar.le
    · rw [hsame]
    · exact heq.ge
  · rcases compare_ofRatio hd hsmall y with hfar | hsame | ⟨-, heven, -⟩
    · exact absurd heq.symm (ne_of_lt hfar)
    · exact absurd hsame hne
    · exact heven

/-- No other double is the nearest one. -/
theorem NearestTo.eq_ofRatio (h : y.NearestTo ((n : ℚ) / d)) (hd : 0 < d) :
    y = Number.ofRatio n d := by
  have hr := nearestTo_ofRatio (n := n) hd
  rcases le_or_gt (2 ^ 1024 - 2 ^ 970) ((n : ℚ) / d) with hlarge | hsmall
  · rw [h.infinite.mpr hlarge, hr.infinite.mpr hlarge]
  have hy := h.finite hsmall
  have hrf := hr.finite hsmall
  have hle := h.nearest hsmall _ hrf
  rcases compare_ofRatio hd hsmall y with hfar | hsame | ⟨heq, -, hodd⟩
  · exact absurd hfar (not_lt.mpr hle)
  · rw [value_of_positive h.positive, value_of_positive hr.positive] at hsame
    exact eq_of_absolute hy hrf h.positive hr.positive hsame
  · by_contra hne
    have hvalue : (Number.ofRatio n d).value ≠ y.value := by
      intro hsame
      rw [value_of_positive h.positive, value_of_positive hr.positive] at hsame
      exact hne (eq_of_absolute hy hrf h.positive hr.positive hsame.symm)
    have heven := h.even hsmall _ hrf hvalue heq.symm
    omega

end Nearness

end Number

/-- A decimal is read as the one double that is nearest to it. -/
theorem Decimal.nearestTo_iff (d : Decimal) (x : Number) :
    x.NearestTo d.value ↔ x = d.nearest := by
  have hpos : 0 < Nat.pow 10 (-d.exponent).toNat := Nat.pow_pos (by norm_num)
  rw [← ratio_eq_value]
  constructor
  · intro h
    exact h.eq_ofRatio hpos
  · rintro rfl
    exact Number.nearestTo_ofRatio hpos

end Lox
