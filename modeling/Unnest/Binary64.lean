/-!
# Double-precision numbers

A number is its 64 bits, so that two numbers are equal exactly when their patterns are. A finite
number with mantissa `m` and scale `q` has magnitude `m * 2 ^ q`. Comparison, remainder and the
conversion to an integer are computed from the parts, without rounding; sum, difference, product
and quotient are the machine's.
-/

namespace Unnest

/-- A double-precision number, held as its 64 bits. -/
structure Binary64 where
  bits : UInt64
  deriving DecidableEq, Inhabited

namespace Binary64

/-- The sign bit is set. -/
def negative (x : Binary64) : Bool :=
  Nat.pow 2 63 ≤ x.bits.toNat

/-- The bits without the sign. -/
def magnitude (x : Binary64) : Nat :=
  x.bits.toNat % Nat.pow 2 63

/-- The eleven exponent bits, still biased. -/
def exponent (x : Binary64) : Nat :=
  x.magnitude / Nat.pow 2 52

/-- The fifty-two fraction bits. -/
def fraction (x : Binary64) : Nat :=
  x.magnitude % Nat.pow 2 52

/-- Not a number: the exponent is all ones and the fraction is not zero. -/
def isNaN (x : Binary64) : Bool :=
  x.exponent == 2047 && x.fraction != 0

/-- Infinite: the exponent is all ones and the fraction is zero. -/
def isInfinite (x : Binary64) : Bool :=
  x.exponent == 2047 && x.fraction == 0

/-- Zero, of either sign. -/
def isZero (x : Binary64) : Bool :=
  x.magnitude == 0

/-- The whole number `m` in the magnitude `m * 2 ^ q` of a finite number. -/
def mantissa (x : Binary64) : Nat :=
  if x.exponent = 0 then x.fraction else Nat.pow 2 52 + x.fraction

/-- The power `q` in the magnitude `m * 2 ^ q` of a finite number. -/
def scale (x : Binary64) : Int :=
  if x.exponent = 0 then -1074 else (x.exponent : Int) - 1075

/-- The number with magnitude `m * 2 ^ q`, for `m < 2 ^ 53` and `-1074 ≤ q` within range. -/
def ofParts (negative : Bool) (m : Nat) (q : Int) : Binary64 :=
  let sign := if negative then Nat.pow 2 63 else 0
  if m = 0 then ⟨UInt64.ofNat sign⟩
  else
    let shift := min (52 - m.log2) (q + 1074).toNat
    let wide := m * Nat.pow 2 shift
    let power := q - shift
    if wide < Nat.pow 2 52 then ⟨UInt64.ofNat (sign + wide)⟩
    else ⟨UInt64.ofNat (sign + (power + 1075).toNat * Nat.pow 2 52 + (wide - Nat.pow 2 52))⟩

/-- The quiet not-a-number that arithmetic makes. -/
def nan : Binary64 := ⟨0x7ff8000000000000⟩

/-- The bits of a machine float. -/
def ofFloat (x : Float) : Binary64 := ⟨x.toBits⟩

/-- The machine float with these bits. -/
def toFloat (x : Binary64) : Float := Float.ofBits x.bits

/-- Sum, rounded to nearest. -/
def add (x y : Binary64) : Binary64 := ofFloat (x.toFloat + y.toFloat)

/-- Difference, rounded to nearest. -/
def sub (x y : Binary64) : Binary64 := ofFloat (x.toFloat - y.toFloat)

/-- Product, rounded to nearest. -/
def mul (x y : Binary64) : Binary64 := ofFloat (x.toFloat * y.toFloat)

/-- Quotient, rounded to nearest. -/
def div (x y : Binary64) : Binary64 := ofFloat (x.toFloat / y.toFloat)

/-- What remains of `x` after taking away `y` a whole number of times, rounded toward zero. The
result is exact and has the sign of `x`. -/
def rem (x y : Binary64) : Binary64 :=
  if x.isNaN || y.isNaN || x.isInfinite || y.isZero then nan
  else if y.isInfinite || x.isZero then x
  else
    let q := min x.scale y.scale
    let a := x.mantissa * Nat.pow 2 (x.scale - q).toNat
    let b := y.mantissa * Nat.pow 2 (y.scale - q).toNat
    ofParts x.negative (a % b) q

/-- The place of a number on the line; both zeros are at the origin. -/
def position (x : Binary64) : Int :=
  if x.negative then -(x.magnitude : Int) else x.magnitude

/-- The order of two numbers, or none when one of them is not a number. -/
def compare? (x y : Binary64) : Option Ordering :=
  if x.isNaN || y.isNaN then none else some (compare x.position y.position)

/-- Numeric equality: zeros are equal whatever their sign, and not-a-number equals nothing. -/
def same (x y : Binary64) : Bool :=
  !x.isNaN && !y.isNaN && x.position == y.position

/-- The integer part, held within the 64-bit integers; not-a-number gives zero. -/
def toInt64 (x : Binary64) : Int64 :=
  if x.isNaN then 0
  else
    let whole : Nat :=
      if x.isInfinite then Nat.pow 2 64
      else x.mantissa * Nat.pow 2 x.scale.toNat / Nat.pow 2 (-x.scale).toNat
    let signed : Int := if x.negative then -whole else whole
    Int64.ofInt (max Int64.minValue.toInt (min Int64.maxValue.toInt signed))

/-- The number nearest to an integer. -/
def ofInt64 (n : Int64) : Binary64 := ofFloat n.toFloat

/-- Only not-a-number differs from itself. -/
@[simp] theorem same_self (x : Binary64) : x.same x = !x.isNaN := by
  simp [same]

theorem same_comm (x y : Binary64) : x.same y = y.same x := by
  rw [same, same, Bool.beq_comm (a := x.position), Bool.and_comm (!x.isNaN)]

end Binary64

end Unnest
