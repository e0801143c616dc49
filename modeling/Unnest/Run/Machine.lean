import Unnest.Program
import Unnest.Run.Frame
import Unnest.Run.Heap
import Unnest.Run.Host
import Unnest.Run.Operators
/-!
# The machine

The machine runs lowered functions one op at a time. Calls to functions of the program suspend the
caller; other calls go to the host. An exception goes to the pad that the call or throw names and
otherwise out of the function, ending the callers in turn up to one that has a pad. The heap, the
log of the host and the number of steps are left behind by a run, also by one that fails.

Every op counts as a step before it runs, over all calls together. The budget of steps is what the
recursion of `runWithin` goes by, so every run ends.
-/

namespace Unnest

/-- What runs leave behind. -/
structure Store where
  heap : Heap := #[]
  host : Host := {}
  steps : Nat := 0

/-- A run over the heap and the host that can stop with an error. -/
abbrev Exec := EStateM RunError Store

/-- A computation on a frame, as one that keeps the store. -/
instance : MonadLift (Except RunError) Exec where
  monadLift x := fun s =>
    match x with
    | .ok a => .ok a s
    | .error e => .error e s

/-- An op that called: its description, and where it goes on when the call returns and when it
throws, if it names blocks for that. -/
structure CallSite where
  op : Op
  edges : Option (BlockId × BlockId) := none

/-- What happens after an op has run. -/
inductive Flow where
  | next (fr : Frame)
  | call (fr : Frame) (site : CallSite) (callee : Func) (args : List Value)
  | done (outcome : Outcome)

/-- A run under way, with its suspended callers from the innermost outward, or its outcome. -/
inductive Progress where
  | running (fr : Frame) (callers : List (Frame × CallSite))
  | finished (outcome : Outcome)

namespace Machine

/-- Goes on after a call. -/
def resume (fr : Frame) (site : CallSite) : CallResult → Except RunError Flow
  | .ok values =>
    let fr := fr.defineAll site.op values
    match site.edges with
    | none => .ok (.next fr)
    | some (normal, _) => .next <$> fr.enter normal []
  | .error thrown =>
    match site.edges with
    | none => .ok (.done (.threw thrown))
    | some (_, unwind) => .next <$> fr.unwind unwind thrown

/-- Calls a function of the program or, if it has none of that name, the host. -/
def call (p : Program) (fr : Frame) (site : CallSite) (callee : String) (args : List Value) :
    Exec Flow := do
  match p.func? callee with
  | some f => return .call fr site f args
  | none =>
    let s ← get
    let (result, host) := s.host.call callee args
    set { s with host }
    resume fr site result

/-- A new cell that holds a value. -/
def allocate (v : Value) : Exec Pointer := do
  let s ← get
  let (pointer, heap) := s.heap.allocate v
  set { s with heap }
  return pointer

/-- Reads the heap through a pointer. -/
def read (pointer : Pointer) : Exec Value := do
  (← get).heap.read pointer

/-- Writes the heap through a pointer. -/
def write (pointer : Pointer) (v : Value) : Exec Unit := do
  let heap ← (← get).heap.write pointer v
  modify fun s => { s with heap }

/-- What a new variable holds. -/
def initialValue (fr : Frame) (d : Op) : Except RunError Value := do
  match d.operands, d.results with
  | init :: _, _ => fr.get init
  | [], [] => return .undefined
  | [], result :: _ => return (((← fr.typeOf result).pointee?).map Value.initial).getD .undefined

/-- Runs an instruction. -/
def runInstr (p : Program) (fr : Frame) (op : OpId) (d : Op) : Instr → Exec Flow
  | .constant value => do return .next (← fr.define op d (.ofLiteral value))
  | .null => do return .next (← fr.define op d .null)
  | .undefined => do return .next (← fr.define op d .undefined)
  | .alloc _ => do
    let pointer ← allocate (← initialValue fr d)
    return .next (← fr.define op d (.ref pointer))
  | .load => do
    let v ← read (← fr.pointer op d 0)
    return .next (← fr.define op d v)
  | .store | .saveCatch => do
    let v ← fr.operand op d 0
    write (← fr.pointer op d 1) v
    return .next fr
  | .fieldRef index => do
    let base ← fr.pointer op d 0
    return .next (← fr.define op d (.ref (base.field index)))
  | .cast => do
    let v ← fr.operand op d 0
    match d.results with
    | [] => throw (.castWithoutResult op)
    | result :: _ => return .next (← fr.define op d (v.cast (← fr.typeOf result)))
  | .binary operator => do
    let lhs ← fr.operand op d 0
    let rhs ← fr.operand op d 1
    match operator.eval? lhs rhs with
    | some v => return .next (← fr.define op d v)
    | none => throw (.undefinedOperation lhs operator rhs op)
  | .call callee => do call p fr { op := d } callee (← fr.operands d 0)
  | .callIndirect => do
    let callee ← fr.calleeName op d
    call p fr { op := d } callee (← fr.operands d 1)
  | .landingPad _ _ =>
    match fr.inFlight with
    | some thrown => do return .next (← fr.define op d (.exception thrown.ty thrown.payload))
    | none => throw (.nothingInFlight op)
  | .matchType token => do
    let thrown ← fr.exception op d
    return .next (← fr.define op d (.bool (p.types.token? thrown.ty == some token)))
  | .beginCatch => do
    let thrown ← fr.exception op d
    return .next (← fr.define op d thrown.payload)
  | .endCatch => return .next { fr with inFlight := none }
  | .beginCleanup => return .next fr

/-- Runs a transfer. -/
def runTransfer (p : Program) (fr : Frame) (op : OpId) (d : Op) : Transfer → Exec Flow
  | .br target => do return .next (← fr.enter target (← fr.operands d 0))
  | .condBr thenTo elseTo thenArgs => do
    let flag ← fr.operand op d 0
    let args ← fr.operands d 1
    if flag.truthy then
      return .next (← fr.enter thenTo (args.take thenArgs))
    else
      return .next (← fr.enter elseTo (args.drop thenArgs))
  | .switchInt default cases => do
    let v ← fr.operand op d 0
    match v.asInt? with
    | some n =>
      let target := ((cases.find? (·.1 == n)).map (·.2)).getD default
      return .next (← fr.enter target [])
    | none => throw (.notInteger v op)
  | .invoke (.symbol callee) normal unwind => do
    call p fr { op := d, edges := some (normal, unwind) } callee (← fr.operands d 0)
  | .invoke .indirect normal unwind => do
    let callee ← fr.calleeName op d
    call p fr { op := d, edges := some (normal, unwind) } callee (← fr.operands d 1)
  | .throwTo unwind => do return .next (← fr.unwind unwind (← fr.raised op d))
  | .throwOut => do return .done (.threw (← fr.raised op d))
  | .endCleanup outer => do
    let thrown ← fr.raised op d
    match outer with
    | some unwind => return .next (← fr.unwind unwind thrown)
    | none => return .done (.threw thrown)
  | .ret =>
    match d.operands with
    | [] => return .done (.returned none)
    | v :: _ => do return .done (.returned (some (← fr.get v)))
  | .unreachable => throw (.reachedUnreachable op)

/-- Runs one op. -/
def runOp (p : Program) (fr : Frame) (op : OpId) : Exec Flow := do
  let d ← RunError.ofNode (fr.func.op? op)
  match d.kind with
  | .instr i => runInstr p fr op d i
  | .transfer t => runTransfer p fr op d t
  | .construct c => throw (.structuredOp (.construct c) fr.func.name op)

/-- The results or the exception that the end of a call gives its caller. -/
def callResult : Outcome → CallResult
  | .returned value => .ok value.toList
  | .threw thrown => .error thrown

/-- Carries on after an op: enters the function it calls, or hands the end of a call to the
callers. -/
def advance (callers : List (Frame × CallSite)) (flow : Flow) : Except RunError Progress :=
  match flow with
  | .next fr => .ok (.running fr callers)
  | .call fr site callee args => do
    return .running (← Frame.start callee args) ((fr, site) :: callers)
  | .done outcome =>
    match callers with
    | [] => .ok (.finished outcome)
    | (fr, site) :: callers => do advance callers (← resume fr site (callResult outcome))

/-- Runs until there is an outcome, for at most `budget` more steps. -/
def runWithin (p : Program) (limit : Nat) (budget : Nat) (fr : Frame)
    (callers : List (Frame × CallSite)) : Exec Outcome := do
  match fr.rest with
  | [] => throw (.fellOff fr.block)
  | op :: rest =>
    modify fun s => { s with steps := s.steps + 1 }
    match budget with
    | 0 => throw (.stepLimit limit fr.func.name)
    | budget + 1 =>
      match ← advance callers (← runOp p { fr with rest } op) with
      | .finished outcome => return outcome
      | .running fr callers => runWithin p limit budget fr callers

/-- The number of steps a run may take unless said otherwise. -/
def defaultLimit : Nat := 100000

/-- Calls a function of the program. The steps of the run before are forgotten once the function
is found. -/
def run (p : Program) (limit : Nat) (name : String) (args : List Value) : Exec Outcome := do
  match p.func? name with
  | none => throw (.unknownFunction name)
  | some f =>
    modify fun s => { s with steps := 0 }
    runWithin p limit limit (← Frame.start f args) []

end Machine

end Unnest
