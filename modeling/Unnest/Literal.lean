import Unnest.Ty
import Unnest.Decimal.Layout
import Unnest.Text.Escape
/-!
# Literals and operators

A literal is the value of a constant op. Two literals are the same constant when they are equal
as written, so the two zeros are told apart; `Literal.sameValue` compares them as numbers.
-/

namespace Unnest

/-- The constants an op can make. -/
inductive Literal where
  | bool (value : Bool)
  | int (value : Int64)
  | float (value : Binary64)
  | str (value : String)
  /-- A reference to a function by name. -/
  | fn (name : String)
  deriving DecidableEq, Inhabited

namespace Literal

/-- How listings print a constant. -/
def text : Literal → String
  | bool value => toString value
  | int value => toString value.toInt
  | float value => value.text
  | str value => "\"" ++ Text.escape value ++ "\""
  | fn name => "@" ++ name

/-- Equality of the values: floats compare as numbers. -/
def sameValue : Literal → Literal → Bool
  | float a, float b => a.same b
  | a, b => a == b

end Literal

/-- The binary operators. -/
inductive BinOp where
  | add
  | sub
  | mul
  | div
  | rem
  | eq
  | ne
  | lt
  | le
  | gt
  | ge
  | and
  | or
  deriving DecidableEq, Inhabited

namespace BinOp

/-- How listings print an operator. -/
def text : BinOp → String
  | add => "add"
  | sub => "sub"
  | mul => "mul"
  | div => "div"
  | rem => "rem"
  | eq => "eq"
  | ne => "ne"
  | lt => "lt"
  | le => "le"
  | gt => "gt"
  | ge => "ge"
  | and => "and"
  | or => "or"

/-- The operator compares its operands. -/
def isComparison : BinOp → Bool
  | eq | ne | lt | le | gt | ge => true
  | _ => false

/-- Comparisons and the two connectives give a truth value, arithmetic the type of its operand. -/
def resultTy (op : BinOp) (operand : Ty) : Ty :=
  match op with
  | and | or => .bool
  | op => if op.isComparison then .bool else operand

end BinOp

end Unnest
