/-! Double-precision numbers, held by their bit pattern.

A pattern without its sign bit counts the non-negative doubles in ascending order, so rounding,
overflow and the boundary between subnormal and normal numbers are plain arithmetic on it. Two
numbers are the same value when their bits agree; the equality that a program sees is
`Number.equals`, under which the zeros are equal and a NaN differs from itself.

Powers are spelled `Nat.pow`, which is one function whatever algebra a file imports. -/

namespace Lox

structure Number where
  bits : UInt64
  deriving DecidableEq, Repr

namespace Number

/-- The pattern of positive infinity; larger patterns without a sign are NaNs. -/
def infinity : Nat := 2047 * Nat.pow 2 52

def negative (x : Number) : Bool := Nat.pow 2 63 ≤ x.bits.toNat

def magnitude (x : Number) : Nat := x.bits.toNat % Nat.pow 2 63

def isNaN (x : Number) : Bool := infinity < x.magnitude

def isFinite (x : Number) : Bool := x.magnitude < infinity

/-- A finite number has the absolute value `significand * 2 ^ exponent`. -/
def significand (x : Number) : Nat :=
  if x.magnitude < Nat.pow 2 52 then x.magnitude else Nat.pow 2 52 + x.magnitude % Nat.pow 2 52

def exponent (x : Number) : Int :=
  if x.magnitude < Nat.pow 2 52 then -1074 else (x.magnitude / Nat.pow 2 52 : Nat) - 1075

/-- The absolute value rounded down to an integer. -/
def whole (x : Number) : Nat :=
  x.significand * Nat.pow 2 x.exponent.toNat / Nat.pow 2 (-x.exponent).toNat

def isIntegral (x : Number) : Bool :=
  x.isFinite && x.significand % Nat.pow 2 (-x.exponent).toNat == 0

def toFloat (x : Number) : Float := Float.ofBits x.bits

def ofFloat (x : Float) : Number := ⟨x.toBits⟩

def negate (x : Number) : Number := ⟨x.bits ^^^ 0x8000000000000000⟩

def add (x y : Number) : Number := ofFloat (x.toFloat + y.toFloat)

def subtract (x y : Number) : Number := ofFloat (x.toFloat - y.toFloat)

def multiply (x y : Number) : Number := ofFloat (x.toFloat * y.toFloat)

def divide (x y : Number) : Number := ofFloat (x.toFloat / y.toFloat)

def equals (x y : Number) : Bool := x.toFloat == y.toFloat

def less (x y : Number) : Bool := x.toFloat < y.toFloat

def lessOrEqual (x y : Number) : Bool := x.toFloat ≤ y.toFloat

end Number

end Lox
