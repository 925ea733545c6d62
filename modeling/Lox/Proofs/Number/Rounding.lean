import Lox.Number.Shortest
import Mathlib.Algebra.Order.Field.Basic
import Mathlib.Algebra.Order.Field.Power
import Mathlib.Data.Int.Log
import Mathlib.Data.Rat.Floor
import Mathlib.Tactic.FieldSimp
import Mathlib.Tactic.Linarith
import Mathlib.Tactic.Positivity
import Mathlib.Tactic.Ring

/-! Reading a ratio as the nearest double.

The pattern of a double is its significand on top of as many binades as lie below its own, so the
same number is spelled with a significand of the binade below where that overflows. The ratios that
are read as a double are those of its rounding interval: half the way to its neighbours, with the
ends if its significand is even. -/

namespace Lox

/-- A power with an integer exponent is a ratio of two naturals, of which one is one. -/
theorem zpow_eq_div {b : ℕ} (hb : b ≠ 0) (k : ℤ) :
    (b : ℚ) ^ k = (Nat.pow b k.toNat : ℕ) / (Nat.pow b (-k).toNat : ℕ) := by
  have hb' : (b : ℚ) ≠ 0 := Nat.cast_ne_zero.mpr hb
  cases k with
  | ofNat n => simp
  | negSucc n =>
    have hneg : (-Int.negSucc n).toNat = n + 1 := by omega
    rw [hneg]
    simp [zpow_negSucc]

section Rounding

variable {n d s : ℕ}

/-- The natural that a rational is rounded to: a half away at most, and less than that if it is
odd. -/
structure RoundsTo (q : ℚ) (s : ℕ) : Prop where
  near : |q - s| ≤ 1 / 2
  even : s % 2 = 0 ∨ |q - s| < 1 / 2

theorem roundsTo_nearestEven (hd : 0 < d) : RoundsTo ((n : ℚ) / d) (nearestEven n d) := by
  have hd' : (0 : ℚ) < d := by exact_mod_cast hd
  obtain ⟨t, ht⟩ : ∃ t, t = n / d := ⟨_, rfl⟩
  obtain ⟨r, hr⟩ : ∃ r, r = n % d := ⟨_, rfl⟩
  have hsplit : (n : ℚ) / d = t + r / d := by
    have hn : n = d * t + r := by rw [ht, hr, Nat.div_add_mod]
    rw [hn]
    push_cast
    field_simp
  have hrd : r < d := hr ▸ Nat.mod_lt n hd
  have hpos : (0 : ℚ) ≤ r / d := by positivity
  have hone : (r : ℚ) / d < 1 := by
    rw [div_lt_one hd']
    exact_mod_cast hrd
  unfold nearestEven
  rw [← ht, ← hr, hsplit]
  by_cases hless : 2 * r < d
  · have hfrac : (r : ℚ) / d < 1 / 2 := by
      rw [div_lt_div_iff₀ hd' two_pos]
      exact_mod_cast (by omega : r * 2 < 1 * d)
    have hnear : |(t : ℚ) + r / d - t| < 1 / 2 := by
      rw [abs_lt]
      constructor <;> linarith
    rw [if_pos hless]
    exact ⟨hnear.le, .inr hnear⟩
  rw [if_neg hless]
  by_cases hmore : d < 2 * r
  · have hfrac : 1 / 2 < (r : ℚ) / d := by
      rw [div_lt_div_iff₀ two_pos hd']
      exact_mod_cast (by omega : 1 * d < r * 2)
    have hnear : |(t : ℚ) + r / d - (t + 1 : ℕ)| < 1 / 2 := by
      rw [abs_lt]
      push_cast
      constructor <;> linarith
    rw [if_pos hmore]
    exact ⟨hnear.le, .inr hnear⟩
  · -- Both neighbours are a half away, and the even one is taken.
    have hfrac : (r : ℚ) / d = 1 / 2 := by
      rw [div_eq_div_iff hd'.ne' two_ne_zero]
      exact_mod_cast (by omega : r * 2 = 1 * d)
    rw [if_neg hmore, hfrac]
    refine ⟨?_, .inl (by omega)⟩
    rcases Nat.mod_two_eq_zero_or_one t with heven | hodd
    · rw [heven, abs_le]
      push_cast
      constructor <;> linarith
    · rw [hodd, abs_le]
      push_cast
      constructor <;> linarith

namespace RoundsTo

variable {q : ℚ}

/-- Any other integer is farther away, or as far and odd. -/
theorem compare (h : RoundsTo q s) (m : ℤ) : |q - s| < |q - m| ∨ m = s ∨
    (|q - m| = |q - s| ∧ s % 2 = 0 ∧ m % 2 = 1) := by
  by_cases hm : m = s
  · exact .inr (.inl hm)
  have hnear := h.near
  have hone : (1 : ℚ) ≤ |(m : ℚ) - s| := by
    exact_mod_cast Int.one_le_abs (sub_ne_zero.mpr hm)
  have hsum : |(m : ℚ) - s| ≤ |q - m| + |q - s| := by
    have := abs_sub_le (m : ℚ) q s
    rwa [abs_sub_comm (m : ℚ) q] at this
  rcases lt_or_ge |q - s| |q - m| with hlt | hge
  · exact .inl hlt
  · have hhalf : |q - s| = 1 / 2 := by linarith
    have heven := h.even.resolve_right (by linarith)
    have hstep : |m - s| ≤ 1 := by
      have hle : |(m : ℚ) - s| ≤ 1 := by linarith
      exact_mod_cast hle
    rw [abs_le] at hstep
    exact .inr (.inr ⟨by linarith, heven, by omega⟩)

theorem unique {t : ℕ} (h : RoundsTo q s) (h' : RoundsTo q t) : s = t := by
  have hst := h.compare t
  have hts := h'.compare s
  rw [Int.cast_natCast] at hst hts
  rcases hst with hlt | heq | ⟨heq, heven, hodd⟩
  · rcases hts with hlt' | heq' | ⟨heq', -, -⟩
    · exact absurd hlt (not_lt.mpr hlt'.le)
    · exact_mod_cast heq'
    · exact absurd heq' (ne_of_lt hlt)
  · exact_mod_cast heq.symm
  · rcases hts with hlt' | heq' | ⟨-, heven', -⟩
    · exact absurd heq (ne_of_lt hlt')
    · exact_mod_cast heq'
    · omega

end RoundsTo

/-- Rounding gives the natural that is less than a half away, and of two that are a half away the
even one. -/
theorem nearestEven_eq (hd : 0 < d) (h : RoundsTo ((n : ℚ) / d) s) : nearestEven n d = s :=
  (roundsTo_nearestEven hd).unique h

theorem floorLog2_eq (hn : 0 < n) (hd : 0 < d) : floorLog2 n d = Int.log 2 ((n : ℚ) / d) := by
  have hn' : (0 : ℚ) < n := by exact_mod_cast hn
  have hd' : (0 : ℚ) < d := by exact_mod_cast hd
  have hq : (0 : ℚ) < n / d := div_pos hn' hd'
  obtain ⟨k, hk⟩ : ∃ k : ℤ, k = (n.log2 : ℤ) - d.log2 := ⟨_, rfl⟩
  -- The logarithms of numerator and denominator leave a choice of two.
  have hupper : Int.log 2 ((n : ℚ) / d) < k + 1 := by
    rw [← Int.lt_zpow_iff_log_lt one_lt_two hq]
    have hnlt : (n : ℚ) < 2 ^ (n.log2 + 1) := by exact_mod_cast Nat.lt_log2_self
    have hdle : (2 : ℚ) ^ d.log2 ≤ d := by exact_mod_cast Nat.log2_self_le hd.ne'
    have hsplit : ((2 : ℕ) : ℚ) ^ (k + 1) = 2 ^ (n.log2 + 1) / 2 ^ d.log2 := by
      have hexp : k + 1 = ((n.log2 + 1 : ℕ) : ℤ) - (d.log2 : ℕ) := by omega
      rw [hexp, Nat.cast_ofNat, zpow_natCast_sub_natCast₀ two_ne_zero]
    rw [hsplit]
    exact div_lt_div₀ hnlt hdle (by positivity) (by positivity)
  have hlower : k - 1 ≤ Int.log 2 ((n : ℚ) / d) := by
    rw [← Int.zpow_le_iff_le_log one_lt_two hq]
    have hnle : (2 : ℚ) ^ n.log2 ≤ n := by exact_mod_cast Nat.log2_self_le hn.ne'
    have hdlt : (d : ℚ) < 2 ^ (d.log2 + 1) := by exact_mod_cast Nat.lt_log2_self
    have hsplit : ((2 : ℕ) : ℚ) ^ (k - 1) = 2 ^ n.log2 / 2 ^ (d.log2 + 1) := by
      have hexp : k - 1 = (n.log2 : ℕ) - ((d.log2 + 1 : ℕ) : ℤ) := by omega
      rw [hexp, Nat.cast_ofNat, zpow_natCast_sub_natCast₀ two_ne_zero]
    rw [hsplit]
    exact div_le_div₀ hn'.le hnle hd' hdlt.le
  have hchoice : d * Nat.pow 2 k.toNat ≤ n * Nat.pow 2 (-k).toNat ↔
      k ≤ Int.log 2 ((n : ℚ) / d) := by
    have hpos : (0 : ℚ) < (Nat.pow 2 (-k).toNat : ℕ) := by simp
    rw [← Int.zpow_le_iff_le_log one_lt_two hq, zpow_eq_div two_ne_zero, div_le_div_iff₀ hpos hd',
      mul_comm d]
    exact_mod_cast Iff.rfl
  unfold floorLog2
  simp only [← hk]
  split
  · rename_i hle
    have := hchoice.mp hle
    omega
  · rename_i hnot
    have := mt hchoice.mpr hnot
    omega

/-- A rational is rounded to a multiple of two to this power: to one of the 2 ^ 52 of its binade, or
of the lowest. -/
structure OnGrid (q : ℚ) (e : ℤ) : Prop where
  least : -1074 ≤ e
  below : q < 2 ^ (e + 53)
  above : e = -1074 ∨ 2 ^ (e + 52) ≤ q

theorem gridExponent_eq_iff (hn : 0 < n) (hd : 0 < d) {e : ℤ} :
    gridExponent n d = e ↔ OnGrid ((n : ℚ) / d) e := by
  have hq : (0 : ℚ) < n / d := div_pos (by exact_mod_cast hn) (by exact_mod_cast hd)
  have hbelow : (n : ℚ) / d < 2 ^ (e + 53) ↔ Int.log 2 ((n : ℚ) / d) < e + 53 := by
    rw [← Int.lt_zpow_iff_log_lt one_lt_two hq, Nat.cast_ofNat]
  have habove : (2 : ℚ) ^ (e + 52) ≤ (n : ℚ) / d ↔ e + 52 ≤ Int.log 2 ((n : ℚ) / d) := by
    rw [← Int.zpow_le_iff_le_log one_lt_two hq, Nat.cast_ofNat]
  rw [gridExponent, floorLog2_eq hn hd]
  constructor
  · intro h
    exact ⟨by omega, hbelow.mpr (by omega), by rw [habove]; omega⟩
  · rintro ⟨hleast, hlt, hle⟩
    rw [hbelow] at hlt
    rw [habove] at hle
    omega

/-- The pattern of a significand, which may be one too long for its binade. -/
def pattern (e : ℤ) (s : ℕ) : ℕ := (e + 1074).toNat * Nat.pow 2 52 + s

theorem scaled_ratio (hd : 0 < d) (e : ℤ) :
    ((n * Nat.pow 2 (-e).toNat : ℕ) : ℚ) / (d * Nat.pow 2 e.toNat : ℕ) = n / d / 2 ^ e := by
  have hpow := zpow_eq_div two_ne_zero e
  rw [Nat.cast_ofNat] at hpow
  have hd' : (d : ℚ) ≠ 0 := by exact_mod_cast hd.ne'
  have hup : ((Nat.pow 2 e.toNat : ℕ) : ℚ) ≠ 0 := by simp
  have hdown : ((Nat.pow 2 (-e).toNat : ℕ) : ℚ) ≠ 0 := by simp
  rw [hpow]
  push_cast at hup hdown ⊢
  field_simp

/-- A positive ratio has a grid, and is rounded there. -/
theorem exists_grid (hn : 0 < n) (hd : 0 < d) :
    ∃ e s, OnGrid ((n : ℚ) / d) e ∧ RoundsTo ((n : ℚ) / d / 2 ^ e) s := by
  obtain ⟨e, he⟩ : ∃ e, gridExponent n d = e := ⟨_, rfl⟩
  have hpos : 0 < d * Nat.pow 2 e.toNat := Nat.mul_pos hd (Nat.two_pow_pos _)
  have hrounds := roundsTo_nearestEven (n := n * Nat.pow 2 (-e).toNat) hpos
  rw [scaled_ratio hd] at hrounds
  exact ⟨e, _, (gridExponent_eq_iff hn hd).mp he, hrounds⟩

/-- The pattern that a ratio is rounded to is found on its grid. -/
theorem Number.ofRatio_eq (hn : 0 < n) (hd : 0 < d) {e : ℤ} (hgrid : OnGrid ((n : ℚ) / d) e)
    (hs : RoundsTo ((n : ℚ) / d / 2 ^ e) s) :
    Number.ofRatio n d = ⟨UInt64.ofNat (min Number.infinity (pattern e s))⟩ := by
  have hpos : 0 < d * Nat.pow 2 e.toNat := Nat.mul_pos hd (Nat.two_pow_pos _)
  rw [← scaled_ratio hd] at hs
  rw [Number.ofRatio, if_neg hn.ne']
  simp only [(gridExponent_eq_iff hn hd).mpr hgrid, nearestEven_eq hpos hs, pattern]

end Rounding

namespace Number

variable (x : Number)

/-- The absolute value of a finite number. -/
def absolute : ℚ := x.significand * 2 ^ x.exponent

/-- Every binade below a number's own counts one significand in its pattern. -/
theorem magnitude_eq : x.magnitude = pattern x.exponent x.significand := by
  have hpow : Nat.pow 2 52 = 4503599627370496 := rfl
  unfold pattern significand exponent
  simp only [hpow]
  split <;> omega

theorem significand_lt : x.significand < 2 ^ 53 := by
  have hpow : Nat.pow 2 52 = 4503599627370496 := rfl
  unfold significand
  simp only [hpow]
  split <;> omega

theorem exponent_ge : -1074 ≤ x.exponent := by
  have hpow : Nat.pow 2 52 = 4503599627370496 := rfl
  unfold exponent
  simp only [hpow]
  split <;> omega

/-- Only numbers of the lowest binades have a short significand. -/
theorem exponent_of_subnormal (h : x.significand < 2 ^ 52) : x.exponent = -1074 := by
  have hpow : Nat.pow 2 52 = 4503599627370496 := rfl
  unfold significand at h
  unfold exponent
  simp only [hpow] at h ⊢
  split
  · rfl
  · rename_i hlarge
    rw [if_neg hlarge] at h
    omega

end Number

/-- A rational lies in a rounding interval. -/
def RoundingInterval.Holds (i : RoundingInterval) (q : ℚ) : Prop :=
  (i.lower * 2 ^ i.exponent ≤ q ∧ q ≤ i.upper * 2 ^ i.exponent) ∧
    (i.closed = true ∨ (i.lower * 2 ^ i.exponent < q ∧ q < i.upper * 2 ^ i.exponent))

namespace Number

variable {x : Number} {n d : ℕ}

/-- How far below its significand a number is still the nearest one. -/
def reach (x : Number) : ℚ :=
  if x.significand = Nat.pow 2 52 ∧ -1074 < x.exponent then 1 / 4 else 1 / 2

/-- The interval of a number in units of its own grid. -/
theorem holds_iff (hs : x.significand ≠ 0) (q : ℚ) : x.roundingInterval.Holds q ↔
    (x.significand - x.reach ≤ q / 2 ^ x.exponent ∧
        q / 2 ^ x.exponent ≤ x.significand + 1 / 2) ∧
      (x.significand % 2 = 0 ∨ (x.significand - x.reach < q / 2 ^ x.exponent ∧
        q / 2 ^ x.exponent < x.significand + 1 / 2)) := by
  have hunit : (0 : ℚ) < 2 ^ x.exponent := by positivity
  have hquarter : (2 : ℚ) ^ (x.exponent - 2) = 2 ^ x.exponent / 4 := by
    rw [zpow_sub₀ two_ne_zero]
    norm_num
  have hlower : (x.roundingInterval.lower : ℚ) * 2 ^ x.roundingInterval.exponent =
      (x.significand - x.reach) * 2 ^ x.exponent := by
    simp only [roundingInterval, reach, hquarter]
    split
    · rw [Nat.cast_sub (by omega)]
      push_cast
      ring
    · rw [Nat.cast_sub (by omega)]
      push_cast
      ring
  have hupper : (x.roundingInterval.upper : ℚ) * 2 ^ x.roundingInterval.exponent =
      (x.significand + 1 / 2) * 2 ^ x.exponent := by
    simp only [roundingInterval, hquarter]
    push_cast
    ring
  have hclosed : x.roundingInterval.closed = true ↔ x.significand % 2 = 0 := by
    simp [roundingInterval]
  rw [RoundingInterval.Holds, hlower, hupper, hclosed, le_div_iff₀ hunit, div_le_iff₀ hunit,
    lt_div_iff₀ hunit, div_lt_iff₀ hunit]

/-- A number without its sign. -/
def unsigned (x : Number) : Number := ⟨UInt64.ofNat x.magnitude⟩

theorem unsigned_eq (hfinite : x.isFinite = true) :
    x.unsigned = ⟨UInt64.ofNat (min infinity (pattern x.exponent x.significand))⟩ := by
  have hlt : x.magnitude < infinity := by simpa [isFinite] using hfinite
  rw [← magnitude_eq, Nat.min_eq_right hlt.le, unsigned]

theorem two_zpow_add (e : ℤ) (k : ℕ) : (2 : ℚ) ^ (e + k) = 2 ^ k * 2 ^ e := by
  rw [zpow_add₀ two_ne_zero, zpow_natCast, mul_comm]

theorem reach_le (x : Number) : x.reach ≤ 1 / 2 := by
  unfold reach
  split <;> norm_num

theorem reach_pos (x : Number) : 0 < x.reach := by
  unfold reach
  split <;> norm_num

/-- A ratio around a number is on the number's grid, unless it is below the binade. -/
theorem ofRatio_of_grid (hfinite : x.isFinite = true) (hn : 0 < n) (hd : 0 < d)
    (hgrid : x.exponent = -1074 ∨ 2 ^ (x.exponent + 52) ≤ (n : ℚ) / d)
    (hs : RoundsTo ((n : ℚ) / d / 2 ^ x.exponent) x.significand) :
    Number.ofRatio n d = x.unsigned := by
  have hunit : (0 : ℚ) < 2 ^ x.exponent := by positivity
  have hupper : (n : ℚ) / d < 2 ^ (x.exponent + 53) := by
    have hsig : (x.significand : ℚ) + 1 ≤ 2 ^ 53 := by exact_mod_cast x.significand_lt
    have hlt : (n : ℚ) / d / 2 ^ x.exponent < 2 ^ 53 := by
      have := (abs_le.mp hs.near).2
      linarith
    calc (n : ℚ) / d < 2 ^ 53 * 2 ^ x.exponent := (div_lt_iff₀ hunit).mp hlt
      _ = 2 ^ (x.exponent + 53) := (two_zpow_add x.exponent 53).symm
  rw [ofRatio_eq hn hd ⟨x.exponent_ge, hupper, hgrid⟩ hs, unsigned_eq hfinite]

/-- What is rounded up to a power of two from the binade below, is rounded there to a significand
that is one too long. -/
theorem ofRatio_of_carry (hfinite : x.isFinite = true) (hn : 0 < n) (hd : 0 < d)
    (hs : x.significand = 2 ^ 52) (hnormal : -1074 < x.exponent)
    (hlower : 2 ^ 52 - 1 / 4 ≤ (n : ℚ) / d / 2 ^ x.exponent)
    (hupper : (n : ℚ) / d < 2 ^ (x.exponent + 52)) : Number.ofRatio n d = x.unsigned := by
  have hunit : (0 : ℚ) < 2 ^ x.exponent := by positivity
  have hhalf : (2 : ℚ) ^ (x.exponent - 1) = 2 ^ x.exponent / 2 := by
    rw [zpow_sub₀ two_ne_zero, zpow_one]
  have hdouble : (n : ℚ) / d / 2 ^ (x.exponent - 1) = 2 * ((n : ℚ) / d / 2 ^ x.exponent) := by
    rw [hhalf]
    field_simp
  have hlt : (n : ℚ) / d / 2 ^ x.exponent < 2 ^ 52 := by
    rw [div_lt_iff₀ hunit, ← two_zpow_add]
    exact hupper
  have hnear : |(n : ℚ) / d / 2 ^ (x.exponent - 1) - (2 ^ 53 : ℕ)| ≤ 1 / 2 := by
    rw [hdouble, abs_le]
    push_cast
    constructor <;> linarith
  have hbelow : (n : ℚ) / d < 2 ^ (x.exponent - 1 + 53) := by
    rw [show x.exponent - 1 + 53 = x.exponent + 52 by ring]
    exact hupper
  have habove : 2 ^ (x.exponent - 1 + 52) ≤ (n : ℚ) / d := by
    rw [show x.exponent - 1 + 52 = x.exponent + (51 : ℕ) by push_cast; ring, two_zpow_add,
      ← le_div_iff₀ hunit]
    linarith
  have hcarry : pattern (x.exponent - 1) (2 ^ 53) = pattern x.exponent x.significand := by
    have hpow : Nat.pow 2 52 = 4503599627370496 := rfl
    rw [pattern, pattern, hs, hpow]
    omega
  rw [ofRatio_eq hn hd ⟨by omega, hbelow, .inr habove⟩ ⟨hnear, .inl (by norm_num)⟩, hcarry,
    unsigned_eq hfinite]

/-- A ratio in the rounding interval of a number is read as that number. -/
theorem ofRatio_of_holds (hfinite : x.isFinite = true) (hs : x.significand ≠ 0) (hd : 0 < d)
    (h : x.roundingInterval.Holds ((n : ℚ) / d)) : Number.ofRatio n d = x.unsigned := by
  obtain ⟨⟨hlower, hupper⟩, heven⟩ := (holds_iff hs _).mp h
  have hreach := x.reach_le
  have hone : (1 : ℚ) ≤ x.significand := by exact_mod_cast Nat.one_le_iff_ne_zero.mpr hs
  have hn : 0 < n := by
    rcases Nat.eq_zero_or_pos n with rfl | hn
    · rw [Nat.cast_zero, zero_div, zero_div] at hlower
      linarith
    · exact hn
  by_cases hgrid : x.exponent = -1074 ∨ (2 : ℚ) ^ (x.exponent + 52) ≤ (n : ℚ) / d
  · refine ofRatio_of_grid hfinite hn hd hgrid ⟨?_, ?_⟩
    · rw [abs_le]
      constructor <;> linarith
    · rcases heven with heven | ⟨hlow, hupp⟩
      · exact .inl heven
      · right
        rw [abs_lt]
        constructor <;> linarith
  · obtain ⟨hexp, hbelow⟩ := not_or.mp hgrid
    have hnormal : -1074 < x.exponent := lt_of_le_of_ne x.exponent_ge (Ne.symm hexp)
    have hlt : (n : ℚ) / d / 2 ^ x.exponent < 2 ^ 52 := by
      rw [div_lt_iff₀ (by positivity), ← two_zpow_add]
      exact not_le.mp hbelow
    have hlarge : 2 ^ 52 ≤ x.significand := by
      by_contra hsmall
      exact hexp (x.exponent_of_subnormal (not_le.mp hsmall))
    have hleast : x.significand = 2 ^ 52 := by
      have hless : (x.significand : ℚ) < 2 ^ 52 + 1 := by linarith
      have : x.significand < 2 ^ 52 + 1 := by exact_mod_cast hless
      omega
    have hquarter : x.reach = 1 / 4 := by
      rw [reach, if_pos ⟨hleast, hnormal⟩]
    rw [hquarter, hleast] at hlower
    exact ofRatio_of_carry hfinite hn hd hleast hnormal (by exact_mod_cast hlower)
      (not_le.mp hbelow)

/-- A number is in the middle of its rounding interval. -/
theorem holds_absolute (hs : x.significand ≠ 0) : x.roundingInterval.Holds x.absolute := by
  have hunit : (2 : ℚ) ^ x.exponent ≠ 0 := by positivity
  have hreach := x.reach_pos
  rw [holds_iff hs, absolute, mul_div_cancel_right₀ _ hunit]
  refine ⟨⟨?_, ?_⟩, .inr ⟨?_, ?_⟩⟩ <;> linarith

theorem unsigned_of_positive (h : x.negative = false) : x.unsigned = x := by
  have hpow : Nat.pow 2 63 = 2 ^ 63 := rfl
  have hbits : x.bits.toNat < 2 ^ 63 := by
    simpa [negative, hpow] using h
  have hmagnitude : x.magnitude = x.bits.toNat := Nat.mod_eq_of_lt hbits
  rw [unsigned, hmagnitude, UInt64.ofNat_toNat]

/-- The sign is one bit of the pattern. -/
theorem negate_unsigned (h : x.negative = true) : x.unsigned.negate = x := by
  have hpow : Nat.pow 2 63 = 2 ^ 63 := rfl
  have hsign : (0x8000000000000000 : UInt64).toNat = 2 ^ 63 := rfl
  have hhigh : x.bits.toNat / 2 ^ 63 = 1 := by
    have hle : 2 ^ 63 ≤ x.bits.toNat := by simpa [negative, hpow] using h
    have hlt := x.bits.toNat_lt
    omega
  have hflipped : (x.bits ^^^ 0x8000000000000000).toNat = x.magnitude := by
    rw [UInt64.toNat_xor, hsign]
    have hlow : (x.bits.toNat ^^^ 2 ^ 63) % 2 ^ 63 = x.magnitude := by
      rw [Nat.xor_mod_two_pow, Nat.mod_self, Nat.xor_zero, magnitude, hpow]
    have hnone : (x.bits.toNat ^^^ 2 ^ 63) / 2 ^ 63 = 0 := by
      rw [Nat.xor_div_two_pow, hhigh, Nat.div_self (Nat.two_pow_pos 63), Nat.xor_self]
    omega
  have hbits : UInt64.ofNat x.magnitude = x.bits ^^^ 0x8000000000000000 := by
    rw [← hflipped, UInt64.ofNat_toNat]
  rw [unsigned, negate, hbits, UInt64.xor_assoc, UInt64.xor_self, UInt64.xor_zero]

theorem negative_of_le_infinity {pattern : ℕ} (h : pattern ≤ infinity) :
    Number.negative ⟨UInt64.ofNat pattern⟩ = false := by
  have hinfinity : infinity < 2 ^ 63 := by decide
  have hsize : pattern < 2 ^ 64 := by omega
  have hbits : (UInt64.ofNat pattern).toNat = pattern := UInt64.toNat_ofNat_of_lt' hsize
  have hpow : Nat.pow 2 63 = 2 ^ 63 := rfl
  rw [negative, hbits, decide_eq_false_iff_not, hpow]
  omega

/-- No number is read with a sign. -/
theorem negative_ofRatio (n d : ℕ) : (Number.ofRatio n d).negative = false := by
  unfold ofRatio
  split
  · rfl
  · exact negative_of_le_infinity (Nat.min_le_left _ _)

end Number

end Lox
