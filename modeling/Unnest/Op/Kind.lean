import Unnest.Literal
import Unnest.Id
/-!
# Kinds of ops

An op is a construct, an instruction or a transfer. Constructs are the structured vocabulary: they
own regions, mark where regions end, or stand for a jump whose target is still to be found.
Lowering removes them. Instructions run straight on to the next op, and transfers end a block and
name the blocks control may go to.

The regions of a construct: `branch` has then and else, `whileLoop` condition and body,
`doWhile` body and condition, `forLoop` condition, body and increment, `switch` and `labeled` one
body, `tryCatch` body, catches and finally.
-/

namespace Unnest

/-- The structured vocabulary, which lowering removes. -/
inductive Construct where
  | entry
  | exit
  | ret
  /-- Operands: the value and the slot it is returned through. -/
  | retVal
  /-- Operands as for `retVal`; suspends a resumable function. -/
  | yieldVal
  | branch
  | whileLoop (label : Option String)
  | doWhile (label : Option String)
  | forLoop (label : Option String)
  | switch (label : Option String)
  | labeled (label : String)
  | brk (label : Option String)
  | cont (label : Option String)
  /-- Ends a region and hands its operands on. -/
  | yield
  /-- Ends a condition region. Operands: the flag, then the values handed on. -/
  | condition
  | noCondition
  | merge
  | tryCatch
  /-- Operand: the variable that receives the payload. -/
  | catchMark (type : Option Ty)
  | throw
  | call (callee : String)
  | callIndirect
  | stateLabel
  /-- Operand: the resume state. -/
  | switchState (default : BlockId)
  | capture
  deriving DecidableEq, Inhabited

/-- The ops a block runs through in order. -/
inductive Instr where
  | constant (value : Literal)
  | alloc (inHeap : Bool)
  | load
  /-- Operands: the value and the pointer. -/
  | store
  | fieldRef (index : Nat)
  | cast
  | binary (op : BinOp)
  | null
  | undefined
  | call (callee : String)
  | callIndirect
  | landingPad (cleanup : Bool) (catches : Option TypeToken)
  | matchType (token : TypeToken)
  | beginCatch
  | endCatch
  /-- Operands: the payload and the variable. -/
  | saveCatch
  | beginCleanup
  deriving DecidableEq, Inhabited

/-- What a call calls. -/
inductive Callee where
  | symbol (name : String)
  /-- The callee is the first operand. -/
  | indirect
  deriving DecidableEq, Inhabited

/-- The ops a lowered block ends in. -/
inductive Transfer where
  | br (target : BlockId)
  /-- Operands: the flag, `thenArgs` values for the first target, the others for the second. -/
  | condBr (thenTo elseTo : BlockId) (thenArgs : Nat)
  | switchInt (default : BlockId) (cases : List (Int64 × BlockId))
  | invoke (callee : Callee) (normal unwind : BlockId)
  | throwTo (unwind : BlockId)
  /-- Throws out of the function. -/
  | throwOut
  | endCleanup (unwind : Option BlockId)
  | ret
  | unreachable
  deriving DecidableEq, Inhabited

/-- What an op does. -/
inductive OpKind where
  | construct (c : Construct)
  | instr (i : Instr)
  | transfer (t : Transfer)
  deriving DecidableEq, Inhabited

namespace Construct

/-- The constructs that end a block. -/
def isTerminator : Construct → Bool
  | exit | yield | condition | noCondition | merge | switchState _ => true
  | _ => false

/-- Loops accept an unlabelled `cont`. -/
def isLoop : Construct → Bool
  | whileLoop _ | doWhile _ | forLoop _ => true
  | _ => false

/-- Loops and switches accept an unlabelled `brk`. -/
def isBreakable : Construct → Bool
  | switch _ => true
  | c => c.isLoop

/-- The label that jumps may name. -/
def label? : Construct → Option String
  | whileLoop label | doWhile label | forLoop label | switch label => label
  | labeled label => some label
  | _ => none

/-- The constructs that may raise an exception themselves. -/
def mayThrow : Construct → Bool
  | call _ | callIndirect | throw => true
  | _ => false

end Construct

namespace Transfer

/-- The blocks control may go to, in the order in which the transfer names them. -/
def successors : Transfer → List BlockId
  | br target => [target]
  | condBr thenTo elseTo _ => [thenTo, elseTo]
  | switchInt default cases => default :: cases.map (·.2)
  | invoke _ normal unwind => [normal, unwind]
  | throwTo unwind => [unwind]
  | endCleanup unwind => unwind.toList
  | throwOut | ret | unreachable => []

/-- Renames the blocks a transfer can go to. -/
def mapSuccessors (g : BlockId → BlockId) : Transfer → Transfer
  | br target => br (g target)
  | condBr thenTo elseTo thenArgs => condBr (g thenTo) (g elseTo) thenArgs
  | switchInt default cases => switchInt (g default) (cases.map fun c => (c.1, g c.2))
  | invoke callee normal unwind => invoke callee (g normal) (g unwind)
  | throwTo unwind => throwTo (g unwind)
  | endCleanup unwind => endCleanup (unwind.map g)
  | throwOut => throwOut
  | ret => ret
  | unreachable => unreachable

theorem successors_mapSuccessors (g : BlockId → BlockId) (t : Transfer) :
    (t.mapSuccessors g).successors = t.successors.map g := by
  cases t with
  | endCleanup unwind => cases unwind <;> simp [mapSuccessors, successors]
  | _ => simp [mapSuccessors, successors]

end Transfer

namespace OpKind

/-- The lowering still has to take the op apart. -/
def isStructured : OpKind → Bool
  | construct _ => true
  | _ => false

/-- The op ends its block. -/
def isTerminator : OpKind → Bool
  | construct c => c.isTerminator
  | instr _ => false
  | transfer _ => true

/-- The construct the op is. -/
def construct? : OpKind → Option Construct
  | construct c => some c
  | _ => none

/-- Whether the op is a construct of the given sort. -/
def isConstruct (p : Construct → Bool) : OpKind → Bool
  | construct c => p c
  | _ => false

/-- The op is a loop. -/
def isLoop (k : OpKind) : Bool := k.isConstruct Construct.isLoop

/-- A break can leave the op. -/
def isBreakable (k : OpKind) : Bool := k.isConstruct Construct.isBreakable

/-- The op can throw. -/
def mayThrow (k : OpKind) : Bool := k.isConstruct Construct.mayThrow

/-- The label the op carries. -/
def label? (k : OpKind) : Option String := k.construct?.bind Construct.label?

/-- Whether the op ends its region and hands its operands on. -/
def isYield (k : OpKind) : Bool := k == .construct .yield

/-- Whether the op is a dispatch to the resume points, which is lowered last. -/
def isDispatch : OpKind → Bool
  | construct (.switchState _) => true
  | _ => false

/-- The op makes a constant. -/
def isConstant : OpKind → Bool
  | instr (.constant _) => true
  | _ => false

/-- The blocks the op can go to. -/
def successors : OpKind → List BlockId
  | construct (.switchState default) => [default]
  | transfer t => t.successors
  | _ => []

/-- Renames the blocks the op can go to. -/
def mapSuccessors (g : BlockId → BlockId) : OpKind → OpKind
  | construct (.switchState default) => construct (.switchState (g default))
  | transfer t => transfer (t.mapSuccessors g)
  | k => k

theorem successors_mapSuccessors (g : BlockId → BlockId) (k : OpKind) :
    (k.mapSuccessors g).successors = k.successors.map g := by
  cases k with
  | construct c => cases c <;> simp [mapSuccessors, successors]
  | instr i => simp [mapSuccessors, successors]
  | transfer t => simp [mapSuccessors, successors, Transfer.successors_mapSuccessors]

end OpKind

end Unnest
