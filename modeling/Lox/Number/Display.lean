import Lox.Number.Shortest

/-! How numbers are written: as values and in token listings.

A value that is an integer shows every digit of it; any other shows the shortest decimal that reads
back. A listing marks integers with `.0` as long as they fit a signed 64-bit word, and writes
larger ones like any other number. -/

namespace Lox.Number

/-- Sign and shortest digits; `inf` and `NaN` are words. -/
def shortestText (x : Number) : String :=
  if x.isNaN then "NaN" else
  let absolute :=
    if x.isFinite then String.ofList (if x.significand = 0 then ['0'] else x.shortestDecimal.text)
    else "inf"
  if x.negative then "-" ++ absolute else absolute

/-- The text that `print` writes. -/
def text (x : Number) : String :=
  if x.isIntegral then (if x.negative then "-" else "") ++ String.ofList (Nat.toDigits 10 x.whole)
  else x.shortestText

/-- The text in a token listing, where zero has no sign. -/
def literalText (x : Number) : String :=
  if x.isIntegral && x.whole < Nat.pow 2 63 then
    (if x.negative && x.whole != 0 then "-" else "")
      ++ String.ofList (Nat.toDigits 10 x.whole) ++ ".0"
  else x.shortestText

end Lox.Number
