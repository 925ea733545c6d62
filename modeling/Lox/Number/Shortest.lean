import Lox.Number.Decimal

/-! The shortest decimal that reads back as a given double.

The reals that round to a double form an interval around it, closed exactly if its significand is
even. Decimals are tried on coarser grids before finer ones; on each grid only the two neighbours
of the double matter. The first grid with a neighbour inside the interval gives the answer: the
nearer neighbour if both are inside, the upper one if they are equally near. All comparisons are
exact. -/

namespace Lox

/-- The reals between `lower` and `upper`, around `center`, all in units of `2 ^ exponent`. -/
structure RoundingInterval where
  lower : Nat
  center : Nat
  upper : Nat
  exponent : Int
  closed : Bool
  deriving DecidableEq, Repr

/-- A quarter of the spacing is the unit: below a power of two the doubles are twice as dense. -/
def Number.roundingInterval (x : Number) : RoundingInterval where
  lower := 4 * x.significand - (if x.significand = Nat.pow 2 52 ∧ -1074 < x.exponent then 1 else 2)
  center := 4 * x.significand
  upper := 4 * x.significand + 2
  exponent := x.exponent - 2
  closed := x.significand % 2 == 0

namespace RoundingInterval

/-- With `place` for the power of ten of a grid, the unit of the interval and the grid's step stand
in the ratio `unit : step`. -/
def unit (i : RoundingInterval) (place : Int) : Nat :=
  Nat.pow 2 i.exponent.toNat * Nat.pow 10 (-place).toNat

def step (i : RoundingInterval) (place : Int) : Nat :=
  Nat.pow 2 (-i.exponent).toNat * Nat.pow 10 place.toNat

def contains (i : RoundingInterval) (d : Decimal) : Bool :=
  let value := d.digits * i.step d.exponent
  let lower := i.lower * i.unit d.exponent
  let upper := i.upper * i.unit d.exponent
  if i.closed then lower ≤ value && value ≤ upper else lower < value && value < upper

/-- The best decimal on one grid. -/
def onGrid? (i : RoundingInterval) (place : Int) : Option Decimal :=
  let center := i.center * i.unit place
  let below := center / i.step place
  let floor : Decimal := ⟨below, place⟩
  let ceiling : Decimal := ⟨below + 1, place⟩
  match i.contains floor, i.contains ceiling with
  | true, true => some (if 2 * center < (2 * below + 1) * i.step place then floor else ceiling)
  | true, false => some floor
  | false, true => some ceiling
  | false, false => none

/-- Tries `grids` grids from `place` downwards. -/
def search (i : RoundingInterval) : Nat → Int → Option Decimal
  | 0, _ => none
  | grids + 1, place =>
    match i.onGrid? place with
    | some d => some d
    | none => i.search grids (place - 1)

end RoundingInterval

/-- The absolute value of a finite number with every digit. -/
def Number.exactDecimal (x : Number) : Decimal :=
  ⟨x.significand * Nat.pow 2 x.exponent.toNat * Nat.pow 5 (-x.exponent).toNat, min 0 x.exponent⟩

/-- A power of ten above the number: its binary logarithm scaled by a little more than `log10 2`. -/
def Number.topPlace (x : Number) : Int :=
  ((x.significand.log2 : Int) + x.exponent + 2) * 30103 / 100000 + 1

/-- The shortest decimal that rounds to the absolute value of a finite number other than zero.
Seventeen digits are always enough; the grids above the first digit never hit. -/
def Number.shortestDecimal (x : Number) : Decimal :=
  (x.roundingInterval.search 24 x.topPlace).getD x.exactDecimal

end Lox
