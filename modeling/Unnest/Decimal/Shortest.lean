import Unnest.Binary64
/-!
# Shortest decimals

Among the decimals that read back as a given number, `shortest` picks those with the fewest digits
and of them the nearest. The reals that round to `m * 2 ^ q` form an interval around it, which
reaches half a unit to each side, or a quarter below when `m` is the least mantissa of its scale;
its ends belong to it when `m` is even. On the grid of multiples of a power of ten only the two
neighbours of the number need a test: if the interval holds any point of the grid, it holds one
of them.
-/

namespace Unnest.Decimal

/-- The number `0.d₁d₂… * 10 ^ point`; the first digit is not zero, and neither is the last. -/
structure Digits where
  digits : List Char
  point : Int
  deriving DecidableEq

/-- Where a number halfway between its two neighbours goes. -/
inductive Tie where
  | up
  | toEven
  deriving DecidableEq

/-- The neighbour of a number to write on the grid of multiples of `10 ^ e`, if one of the two
reads back. Everything is measured in quarters of a unit in the last place and multiplied up to
whole numbers. -/
def onGrid (tie : Tie) (m : Nat) (q : Int) (narrow : Bool) (e : Int) : Option Nat :=
  let measure (quarters : Nat) : Nat :=
    quarters * Nat.pow 2 (q - 2).toNat * Nat.pow 10 (-e).toNat
  let step : Nat := Nat.pow 10 e.toNat * Nat.pow 2 (2 - q).toNat
  let centre := measure (4 * m)
  let low := measure (4 * m - if narrow then 1 else 2)
  let high := measure (4 * m + 2)
  let below := centre / step
  let rest := centre % step
  let closed := m % 2 == 0
  let lowHit := low < below * step || (closed && low == below * step)
  let highHit := (below + 1) * step < high || (closed && (below + 1) * step == high)
  let nearerAbove :=
    step < 2 * rest || (step == 2 * rest && (tie == .up || below % 2 == 1))
  match lowHit, highHit with
  | true, true => some (if nearerAbove then below + 1 else below)
  | true, false => some below
  | false, true => some (below + 1)
  | false, false => none

/-- How many places to the right of the point the first digit of `num / den` stands, when the
quotient is below one. -/
def leadingZeros (num den : Nat) : Nat :=
  (((List.range 400).find? fun j => den ≤ num * Nat.pow 10 (j + 1))).getD 400

/-- The power of ten just above `m * 2 ^ q`. -/
def decimalPoint (m : Nat) (q : Int) : Int :=
  let num := m * Nat.pow 2 q.toNat
  let den := Nat.pow 2 (-q).toNat
  if den ≤ num then (Nat.toDigits 10 (num / den)).length else -(leadingZeros num den : Int)

/-- The digits of `c * 10 ^ e` without zeros at the end. -/
def Digits.ofNat (c : Nat) (e : Int) : Digits :=
  let ds := Nat.toDigits 10 c
  { digits := (ds.reverse.dropWhile (· == '0')).reverse
    point := e + ds.length }

/-- The shortest decimal of a positive finite number. Seventeen digits always suffice. -/
def shortest (tie : Tie) (x : Binary64) : Digits :=
  let m := x.mantissa
  let q := x.scale
  let narrow := m == Nat.pow 2 52 && 1 < x.exponent
  let point := decimalPoint m q
  let grids := (List.range 17).map fun n => point - (n + 1 : Nat)
  match grids.findSome? fun e => (onGrid tie m q narrow e).map (Digits.ofNat · e) with
  | some d => d
  | none => Digits.ofNat (m * Nat.pow 2 q.toNat) 0

end Unnest.Decimal
