import Unnest.Decimal.Shortest
/-!
# Layouts of decimals

A layout says how the digits of a number are written: plainly, with a point and at least one
digit behind it, when the magnitude lies in the layout's range, and otherwise with one digit
before the point and a power of ten.
-/

namespace Unnest.Decimal

/-- Numbers from `10 ^ least` up to but not including `10 ^ most` are written plainly. -/
structure Layout where
  least : Int
  most : Int
  /-- Whether a positive exponent carries its sign. -/
  plusSign : Bool
  tie : Tie

/-- The digits with the point after the first `d.point` of them. -/
def plain (d : Digits) : List Char :=
  if d.point ≤ 0 then
    ['0', '.'] ++ List.replicate (-d.point).toNat '0' ++ d.digits
  else
    let whole := d.point.toNat
    if d.digits.length ≤ whole then
      d.digits ++ List.replicate (whole - d.digits.length) '0' ++ ['.', '0']
    else d.digits.take whole ++ ['.'] ++ d.digits.drop whole

/-- One digit, the others behind a point, and the power of ten. -/
def scientific (plusSign : Bool) (d : Digits) : List Char :=
  let exponent := d.point - 1
  let sign := if exponent < 0 then ['-'] else if plusSign then ['+'] else []
  d.digits.take 1 ++ (if d.digits.length ≤ 1 then [] else '.' :: d.digits.drop 1) ++
    ['e'] ++ sign ++ Nat.toDigits 10 exponent.natAbs

/-- The text of a finite number. -/
def Layout.write (layout : Layout) (x : Binary64) : String :=
  let sign := if x.negative then ['-'] else []
  let body :=
    if x.isZero then ['0', '.', '0']
    else
      let d := shortest layout.tie x
      if layout.least < d.point ∧ d.point ≤ layout.most then plain d
      else scientific layout.plusSign d
  String.ofList (sign ++ body)

end Unnest.Decimal

namespace Unnest.Binary64

/-- Numbers in listings and values: plain from a ten-thousandth up to ten to the sixteenth, a
half goes up. -/
def listed : Decimal.Layout := { least := -4, most := 16, plusSign := false, tie := .up }

/-- The text of a number in listings and values. -/
def text (x : Binary64) : String :=
  if x.isNaN then "NaN"
  else if x.isInfinite then if x.negative then "-inf" else "inf"
  else listed.write x

end Unnest.Binary64
