import Unnest.Run.Value
/-!
# Operators on values

Integer arithmetic wraps around; division and remainder are undefined for a divisor of zero and
where the quotient does not fit. Two floats that are not ordered do not compare. Values of
different kinds only compare for equality.
-/

namespace Unnest

namespace BinOp

/-- What a comparison says about an order. -/
def judge (op : BinOp) (o : Ordering) : Option Bool :=
  match op with
  | eq => some (o == .eq)
  | ne => some (o != .eq)
  | lt => some (o == .lt)
  | le => some (o != .gt)
  | gt => some (o == .gt)
  | ge => some (o != .lt)
  | _ => none

/-- The result of a comparison as a value. -/
def compareAs (op : BinOp) (o : Option Ordering) : Option Value :=
  (o.bind op.judge).map Value.bool

/-- Whether a quotient of integers exists. -/
def divides (a b : Int64) : Bool :=
  b != 0 && !(a == Int64.minValue && b == -1)

/-- The operator on integers, where it has an answer. -/
def onInts (op : BinOp) (a b : Int64) : Option Value :=
  match op with
  | add => some (.int (a + b))
  | sub => some (.int (a - b))
  | mul => some (.int (a * b))
  | div => if divides a b then some (.int (a / b)) else none
  | rem => if divides a b then some (.int (a % b)) else none
  | and => some (.bool (a != 0 && b != 0))
  | or => some (.bool (a != 0 || b != 0))
  | op => op.compareAs (some (compare a.toInt b.toInt))

/-- The operator on floats, where it has an answer. -/
def onFloats (op : BinOp) (a b : Binary64) : Option Value :=
  match op with
  | add => some (.float (a.add b))
  | sub => some (.float (a.sub b))
  | mul => some (.float (a.mul b))
  | div => some (.float (a.div b))
  | rem => some (.float (a.rem b))
  | op => op.compareAs (a.compare? b)

/-- The operator on booleans, where it has an answer. -/
def onBools (op : BinOp) (a b : Bool) : Option Value :=
  match op with
  | and => some (.bool (a && b))
  | or => some (.bool (a || b))
  | eq => some (.bool (a == b))
  | ne => some (.bool (a != b))
  | _ => none

/-- Texts are ordered by the codes of their characters. -/
def onStrings (op : BinOp) (a b : String) : Option Value :=
  match op with
  | add => some (.str (a ++ b))
  | op => op.compareAs (some (if a < b then .lt else if a = b then .eq else .gt))

/-- The value of an operation, where it has one. -/
def eval? (op : BinOp) : Value → Value → Option Value
  | .int a, .int b => op.onInts a b
  | .float a, .float b => op.onFloats a b
  | .bool a, .bool b => op.onBools a b
  | .str a, .str b => op.onStrings a b
  | a, b =>
    match op with
    | eq => some (.bool (a.same b))
    | ne => some (.bool (!a.same b))
    | _ => none

end BinOp

namespace Value

/-- A value at another type. At `bool` it is its truth; numbers convert between integers and
floats; anything else stays as it is. -/
def cast (v : Value) (ty : Ty) : Value :=
  match ty, v with
  | .bool, v => bool v.truthy
  | .i32, float x | .i64, float x => int x.toInt64
  | .i32, bool b | .i64, bool b => int (if b then 1 else 0)
  | .f64, int n => float (.ofInt64 n)
  | _, v => v

end Value

end Unnest
