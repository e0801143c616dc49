import Unnest.Op.Kind
import Unnest.Span
import Unnest.Func.Basic
/-!
# Source statements

The structured programs from which functions are built. A statement names the values it uses and
the values it makes; all names of a function share one table, and a name bound again means its
last value.
-/

namespace Unnest.Source

/-- A value by the name it was bound to, or by its number. -/
inductive Operand where
  | named (name : String)
  | id (value : ValueId)
  deriving DecidableEq, Inhabited

/-- A block by the name it was bound to, or by its number. -/
inductive Place where
  | named (name : String)
  | id (block : BlockId)
  deriving DecidableEq, Inhabited

/-- The statements a function is written in. -/
inductive Stmt where
  | entry (bind : Option String)
  | exit
  | param (index : Nat) (bind : Option String)
  | constant (value : Literal) (ty : Ty) (bind : Option String)
  | null (bind : Option String)
  | var (ty : Ty) (init : Option Operand) (bind : Option String)
  | load (ptr : Operand) (bind : Option String)
  | store (value ptr : Operand)
  | binary (op : BinOp) (lhs rhs : Operand) (bind : Option String)
  | call (callee : String) (args : List Operand) (results : List Ty) (bind : List String)
  | callIndirect (callee : Operand) (args : List Operand) (results : List Ty) (bind : List String)
  | throw (value : Operand)
  | ret
  | retVal (value : Operand)
  | yieldVal (value : Operand)
  | brk (label : Option String)
  | cont (label : Option String)
  | ifThen (cond : Operand) (body : List Stmt)
  | ifElse (cond : Operand) (body alternative : List Stmt)
  | ifValues (cond : Operand) (results : List Ty) (body : List Stmt) (bodyValues : List Operand)
      (alternative : List Stmt) (alternativeValues : List Operand) (bind : List String)
  | whileLoop (label : Option String) (cond : List Stmt) (flag : Operand) (body : List Stmt)
  | whileCarried (label : Option String) (inits : List Operand) (condArgs : List String)
      (cond : List Stmt) (flag : Operand) (forward : List Operand) (bodyArgs : List String)
      (body : List Stmt) (next : List Operand) (bind : List String)
  | doWhile (label : Option String) (body cond : List Stmt) (flag : Operand)
  | forLoop (label : Option String) (cond : List Stmt) (flag : Option Operand)
      (body incr : List Stmt)
  | switch (label : Option String) (body : List Stmt)
  | labeled (label : String) (body : List Stmt)
  | tryCatch (body catches final : List Stmt)
  | catchInto (type : Option Ty) (var : Operand)
  | capture (values : List Operand) (fields : List Ty) (bind : Option String)
  | stateLabel
  | switchState (state : Operand) (default : Place)
  | newBlock (bind : Option String)
  | cursor (block : Place)
  | span (span : Option Span)
  | op (kind : OpKind) (operands : List Operand) (results : List Ty) (bind : List String)
  deriving Inhabited

/-- A function in source form. -/
structure FuncDecl where
  name : String
  sig : Signature
  body : List Stmt
  deriving Inhabited

end Unnest.Source
