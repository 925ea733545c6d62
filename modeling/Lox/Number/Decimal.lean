import Lox.Number.Rounding

/-! Decimal numerals: digits with at most one inner point.

A numeral denotes the ratio of its digits to a power of ten, and `Number.ofNumeral` is the double
nearest to that ratio; a text that is no numeral counts as zero. `Decimal.text` writes the digits
out in place, never with an exponent. -/

namespace Lox

/-- The number `digits * 10 ^ exponent`. -/
structure Decimal where
  digits : Nat
  exponent : Int
  deriving DecidableEq, Repr

def digitValue (c : Char) : Nat := c.toNat - '0'.toNat

def digitsValue (cs : List Char) : Nat := cs.foldl (fun n c => 10 * n + digitValue c) 0

def Decimal.ofNumeral (cs : List Char) : Decimal :=
  let fraction := (cs.dropWhile (· != '.')).drop 1
  ⟨digitsValue (cs.filter (· != '.')), -(fraction.length : Int)⟩

def Decimal.nearest (d : Decimal) : Number :=
  Number.ofRatio (d.digits * Nat.pow 10 d.exponent.toNat) (Nat.pow 10 (-d.exponent).toNat)

/-- One digit at least, and nothing but digits. -/
def isDigits (cs : List Char) : Bool := !cs.isEmpty && cs.all Char.isDigit

/-- Digits, or digits on both sides of a point. -/
def isNumeral (cs : List Char) : Bool :=
  isDigits (cs.takeWhile (· != '.')) &&
    match cs.dropWhile (· != '.') with
    | [] => true
    | _ :: fraction => isDigits fraction

def Number.ofNumeral? (cs : List Char) : Option Number :=
  if isNumeral cs then some (Decimal.ofNumeral cs).nearest else none

def Number.ofNumeral (cs : List Char) : Number := (Number.ofNumeral? cs).getD ⟨0⟩

/-- Positional notation; a point only where a digit follows it. -/
def Decimal.text (d : Decimal) : List Char :=
  let digits := Nat.toDigits 10 d.digits
  match d.exponent with
  | .ofNat zeros => digits ++ List.replicate zeros '0'
  | .negSucc n =>
    let places := n + 1
    if places < digits.length then
      digits.take (digits.length - places) ++ '.' :: digits.drop (digits.length - places)
    else
      '0' :: '.' :: List.replicate (places - digits.length) '0' ++ digits

end Lox
