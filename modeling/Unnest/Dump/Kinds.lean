import Unnest.Dump.Types
import Unnest.Op.Kind
/-!
# Dumps of op kinds

A kind without fields is written as its name, any other as a record under its name.
-/

namespace Unnest

/-- A kind with one field. -/
def oneField (name field : String) (content : Dump) : Dump :=
  .tagged name (.record [(field, content)])

/-- The dump of a construct. -/
def Construct.toDump : Construct → Dump
  | entry => .str "Entry"
  | exit => .str "Exit"
  | ret => .str "Return"
  | retVal => .str "ReturnVal"
  | yieldVal => .str "YieldReturnVal"
  | branch => .str "If"
  | whileLoop label => oneField "While" "label" (.optional .str label)
  | doWhile label => oneField "DoWhile" "label" (.optional .str label)
  | forLoop label => oneField "For" "label" (.optional .str label)
  | switch label => oneField "Switch" "label" (.optional .str label)
  | labeled label => oneField "Label" "label" (.str label)
  | brk label => oneField "Break" "label" (.optional .str label)
  | cont label => oneField "Continue" "label" (.optional .str label)
  | yield => .str "Yield"
  | condition => .str "Condition"
  | noCondition => .str "NoCondition"
  | merge => .str "Merge"
  | tryCatch => .str "Try"
  | catchMark type => oneField "Catch" "catch_type" (.optional Ty.toDump type)
  | throw => .str "Throw"
  | call callee => oneField "Call" "callee" (.str callee)
  | callIndirect => .str "CallIndirect"
  | stateLabel => .str "StateLabel"
  | switchState default => oneField "SwitchState" "default_dest" default.toDump
  | capture => .str "Capture"

/-- The dump of an instruction. -/
def Instr.toDump : Instr → Dump
  | constant value => .tagged "Constant" value.toDump
  | alloc inHeap => oneField "Variable" "in_heap" (.bool inHeap)
  | load => .str "Load"
  | store => .str "Store"
  | fieldRef index => oneField "PropertyRef" "index" (.ofNat index)
  | cast => .str "Cast"
  | binary op => .tagged "Binary" op.toDump
  | null => .str "Null"
  | undefined => .str "Undef"
  | call callee => oneField "CallInternal" "callee" (.str callee)
  | callIndirect => .str "CallIndirectInternal"
  | landingPad cleanup catches =>
    .tagged "LandingPad"
      (.record [("cleanup", .bool cleanup), ("catch_type", .optional TypeToken.toDump catches)])
  | matchType token => oneField "CompareCatchType" "token" token.toDump
  | beginCatch => .str "BeginCatch"
  | endCatch => .str "EndCatch"
  | saveCatch => .str "SaveCatchVar"
  | beginCleanup => .str "BeginCleanup"

/-- The dump of what a call calls. -/
def Callee.toDump : Callee → Dump
  | symbol name => .tagged "Symbol" (.str name)
  | indirect => .str "Indirect"

/-- The dump of a transfer. -/
def Transfer.toDump : Transfer → Dump
  | br target => oneField "Br" "target" target.toDump
  | condBr thenTo elseTo thenArgs =>
    .tagged "CondBr"
      (.record [("then_dest", thenTo.toDump), ("else_dest", elseTo.toDump),
        ("then_args", .ofNat thenArgs)])
  | switchInt default cases =>
    .tagged "SwitchInt"
      (.record [("default", default.toDump),
        ("cases", .list (cases.map fun c => .list [.int c.1.toInt, c.2.toDump]))])
  | invoke callee normal unwind =>
    .tagged "Invoke"
      (.record [("callee", callee.toDump), ("normal", normal.toDump), ("unwind", unwind.toDump)])
  | throwTo unwind => oneField "ThrowUnwind" "unwind" unwind.toDump
  | throwOut => .str "ThrowCall"
  | endCleanup unwind => oneField "EndCleanup" "unwind" (.optional BlockId.toDump unwind)
  | ret => .str "ReturnInternal"
  | unreachable => .str "Unreachable"

/-- The dump of what an op does. -/
def OpKind.toDump : OpKind → Dump
  | construct c => c.toDump
  | instr i => i.toDump
  | transfer t => t.toDump

/-! ## Reading -/

/-- The constructs without fields. -/
def Construct.ofName? : String → Option Construct
  | "Entry" => some entry
  | "Exit" => some exit
  | "Return" => some ret
  | "ReturnVal" => some retVal
  | "YieldReturnVal" => some yieldVal
  | "If" => some branch
  | "Yield" => some yield
  | "Condition" => some condition
  | "NoCondition" => some noCondition
  | "Merge" => some merge
  | "Try" => some tryCatch
  | "Throw" => some throw
  | "CallIndirect" => some callIndirect
  | "StateLabel" => some stateLabel
  | "Capture" => some capture
  | _ => none

/-- The instructions without fields. -/
def Instr.ofName? : String → Option Instr
  | "Load" => some load
  | "Store" => some store
  | "Cast" => some cast
  | "Null" => some null
  | "Undef" => some undefined
  | "CallIndirectInternal" => some callIndirect
  | "BeginCatch" => some beginCatch
  | "EndCatch" => some endCatch
  | "SaveCatchVar" => some saveCatch
  | "BeginCleanup" => some beginCleanup
  | _ => none

/-- The transfers without fields. -/
def Transfer.ofName? : String → Option Transfer
  | "ThrowCall" => some throwOut
  | "ReturnInternal" => some ret
  | "Unreachable" => some unreachable
  | _ => none

/-- The constructs with fields. -/
def Construct.ofFields? (name : String) (d : Dump) : Option Construct :=
  let label := Dump.optional? Dump.str? (d.field "label")
  match name with
  | "While" => label.map whileLoop
  | "DoWhile" => label.map doWhile
  | "For" => label.map forLoop
  | "Switch" => label.map switch
  | "Label" => (d.field "label").str?.map labeled
  | "Break" => label.map brk
  | "Continue" => label.map cont
  | "Catch" => (Dump.optional? Ty.ofDump? (d.field "catch_type")).map catchMark
  | "Call" => (d.field "callee").str?.map call
  | "SwitchState" => (BlockId.ofDump? (d.field "default_dest")).map switchState
  | _ => none

/-- The instructions with fields. -/
def Instr.ofFields? (name : String) (d : Dump) : Option Instr :=
  match name with
  | "Constant" => (Literal.ofDump? d).map constant
  | "Variable" => (d.field "in_heap").bool?.map alloc
  | "PropertyRef" => (d.field "index").nat?.map fieldRef
  | "Binary" => (BinOp.ofDump? d).map binary
  | "CallInternal" => (d.field "callee").str?.map call
  | "LandingPad" => do
    some (landingPad (← (d.field "cleanup").bool?)
      (← Dump.optional? TypeToken.ofDump? (d.field "catch_type")))
  | "CompareCatchType" => (TypeToken.ofDump? (d.field "token")).map matchType
  | _ => none

/-- Reads back what a call calls. -/
def Callee.ofDump? : Dump → Option Callee
  | .str "Indirect" => some indirect
  | .record [("Symbol", .str name)] => some (symbol name)
  | _ => none

/-- One case of a switch: a pair of a number and a block. -/
def switchCase? : Dump → Option (Int64 × BlockId)
  | .list [value, target] => do some (← value.int64?, ← BlockId.ofDump? target)
  | _ => none

/-- The transfers with fields. -/
def Transfer.ofFields? (name : String) (d : Dump) : Option Transfer :=
  match name with
  | "Br" => (BlockId.ofDump? (d.field "target")).map br
  | "CondBr" => do
    some (condBr (← BlockId.ofDump? (d.field "then_dest")) (← BlockId.ofDump? (d.field "else_dest"))
      (← (d.field "then_args").nat?))
  | "SwitchInt" => do
    some (switchInt (← BlockId.ofDump? (d.field "default"))
      (← Dump.listOf? switchCase? (d.field "cases")))
  | "Invoke" => do
    some (invoke (← Callee.ofDump? (d.field "callee")) (← BlockId.ofDump? (d.field "normal"))
      (← BlockId.ofDump? (d.field "unwind")))
  | "ThrowUnwind" => (BlockId.ofDump? (d.field "unwind")).map throwTo
  | "EndCleanup" => (Dump.optional? BlockId.ofDump? (d.field "unwind")).map endCleanup
  | _ => none

/-- Reads back what an op does. -/
def OpKind.ofDump? : Dump → Option OpKind
  | .str name =>
    (Construct.ofName? name).map construct <|> (Instr.ofName? name).map instr <|>
      (Transfer.ofName? name).map transfer
  | .record [(name, d)] =>
    (Construct.ofFields? name d).map construct <|> (Instr.ofFields? name d).map instr <|>
      (Transfer.ofFields? name d).map transfer
  | _ => none

end Unnest
