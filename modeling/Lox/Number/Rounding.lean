import Lox.Number

/-! The double nearest to a ratio of naturals, ties to even.

The significand is rounded on the grid of the binade that holds the ratio, or on the subnormal
grid if that is coarser. A significand that rounds up to the next binade carries into the exponent
by itself, because consecutive patterns are consecutive doubles; the same carry ends at infinity. -/

namespace Lox

/-- The natural nearest to `n / d`; of two equally near, the even one. -/
def nearestEven (n d : Nat) : Nat :=
  if 2 * (n % d) < d then n / d
  else if d < 2 * (n % d) then n / d + 1
  else n / d + (n / d) % 2

/-- The largest `k` with `2 ^ k ≤ n / d`, for positive `n` and `d`. -/
def floorLog2 (n d : Nat) : Int :=
  let k : Int := (n.log2 : Int) - d.log2
  if d * Nat.pow 2 k.toNat ≤ n * Nat.pow 2 (-k).toNat then k else k - 1

/-- Doubles near `n / d` are the multiples of two to this power. -/
def gridExponent (n d : Nat) : Int := max (-1074) (floorLog2 n d - 52)

def Number.ofRatio (n d : Nat) : Number :=
  if n = 0 then ⟨0⟩ else
  let e := gridExponent n d
  let significand := nearestEven (n * Nat.pow 2 (-e).toNat) (d * Nat.pow 2 e.toNat)
  ⟨UInt64.ofNat (min Number.infinity ((e + 1074).toNat * Nat.pow 2 52 + significand))⟩

end Lox
