import Unnest.Op.Text
/-!
# Errors and diagnostics

An error is a broken invariant of the library itself, an input that is not shaped as promised, a
diagnostic raised while a function ran, or a plain message. The first two carry a cause from a
closed list; the wording of every cause is in one place, and `Error.message` puts it together.
A `Diagnostic` is the record that is kept of an error.
-/

namespace Unnest

/-- Broken invariants. -/
inductive Breach where
  | blockDetached (block : BlockId)
  | blockMissing (block : BlockId) (region : RegionId)
  | blockStillOwned (block : BlockId) (owner : RegionId)
  | opNotAttached
  | opMissing (block : BlockId)
  | opDetached
  | emptyBody (function : String)
  | deadBlock (block : BlockId)
  | noTerminator (block : BlockId)
  | openEnd (block : BlockId)
  | earlyTerminator (block : BlockId)
  | structuredLeft (kind : OpKind)
  | nestedBlocks
  | strayEdge (target : BlockId)
  | branchArguments (several : Bool)
  | noJumpTarget
  | noCatchPayload
  | noCompletionSlot
  | noEntryBlock
  | noRoute
  | eagerDispatch
  /-- A cause given in words. -/
  | other (text : String)
  deriving DecidableEq, Inhabited

/-- Inputs that are not shaped as promised. -/
inductive Malformed where
  | outsideConstruct (mnemonic : String)
  | missingRegion (index : Nat)
  | emptyRegion (what : String)
  | conditionWithoutFlag
  | branchWithoutCondition
  | resultsWithoutElse
  | continueNamesSwitch
  | jumpNeedsValues (target : BlockId) (count : Nat)
  | tryRegions
  | unregisteredType (type : Ty)
  | emptyTryBody
  | catchWithoutVariable
  | returnOperands (count : Nat)
  | noReturnBlock
  | captureWithoutResult
  | captureNotTuple
  | captureCount (values fields : Nat)
  | dispatchWithoutState
  /-- A cause given in words. -/
  | other (text : String)
  deriving DecidableEq, Inhabited

namespace Breach

/-- What the error says about a breach. -/
def message : Breach → String
  | blockDetached block => block.text ++ " is not attached to a region"
  | blockMissing block region => block.text ++ " missing from " ++ region.text
  | blockStillOwned block owner =>
    block.text ++ " is still owned by " ++ owner.text ++ " and cannot be spliced"
  | opNotAttached => "operation is not attached to a block"
  | opMissing block => "operation missing from " ++ block.text
  | opDetached => "operation is detached"
  | emptyBody function => "`" ++ function ++ "` has an empty body"
  | deadBlock block => "dead " ++ block.text ++ " left in body"
  | noTerminator block => block.text ++ " has no terminator"
  | openEnd block => block.text ++ " does not end in a terminator"
  | earlyTerminator block => "terminator in the middle of " ++ block.text
  | structuredLeft kind => "structured `" ++ kind.text ++ "` survived lowering"
  | nestedBlocks => "nested region still owns blocks"
  | strayEdge target => "successor " ++ target.text ++ " is not a live body block"
  | branchArguments true => "branch arguments do not match targets"
  | branchArguments false => "branch arguments do not match target"
  | noJumpTarget => "no jump target registered"
  | noCatchPayload => "catch clause has no landing pad payload"
  | noCompletionSlot => "finally has no completion slot"
  | noEntryBlock => "function body has no entry block"
  | noRoute => "completion slot without any route"
  | eagerDispatch => "dispatch reached eagerly"
  | other text => text

end Breach

namespace Malformed

/-- What the error says about malformed input. -/
def message : Malformed → String
  | outsideConstruct mnemonic => "`" ++ mnemonic ++ "` outside of its construct"
  | missingRegion index => "missing region #" ++ toString index
  | emptyRegion what => "empty " ++ what ++ " region"
  | conditionWithoutFlag => "condition without a flag"
  | branchWithoutCondition => "if without a condition"
  | resultsWithoutElse => "if with results needs an else region"
  | continueNamesSwitch => "`continue` names a switch"
  | jumpNeedsValues target count =>
    "jump into " ++ target.text ++ " which expects " ++ toString count ++ " carried values"
  | tryRegions => "try needs body, catch and finally regions"
  | unregisteredType type => "no type info registered for catch type " ++ type.text
  | emptyTryBody => "empty try body"
  | catchWithoutVariable => "catch without a variable"
  | returnOperands count => "expected (value, slot) operands, found " ++ toString count
  | noReturnBlock => "function has no entry op to create the return block"
  | captureWithoutResult => "capture without an environment result"
  | captureNotTuple => "capture result must be a reference to a tuple"
  | captureCount values fields =>
    toString values ++ " captured values for " ++ toString fields ++ " environment fields"
  | dispatchWithoutState => "state dispatch without a state operand"
  | other text => text

end Malformed

/-- The record kept of an error: the stage that reported it, what it said, its code and a hint. -/
structure Diagnostic where
  stage : String
  message : String
  code : Option String := none
  hint : Option String := none
  deriving DecidableEq, Inhabited

/-- The diagnostic as one line of text. -/
def Diagnostic.text (d : Diagnostic) : String :=
  "[" ++ d.stage ++ "] " ++ d.message ++
    (match d.code with
      | some code => " [" ++ code ++ "]"
      | none => "") ++
    (match d.hint with
      | some hint => " (hint: " ++ hint ++ ")"
      | none => "")

/-- The errors the lowering reports. -/
inductive Error where
  | internal (op : Option OpId) (cause : Breach)
  | contract (op : Option OpId) (cause : Malformed)
  | diagnostic (d : Diagnostic)
  | generic (text : String)
  deriving DecidableEq, Inhabited

namespace Error

/-- The op an error points at. -/
def op? : Error → Option OpId
  | internal op _ => op
  | contract op _ => op
  | diagnostic _ => none
  | generic _ => none

/-- The lowering is at fault, not its input. -/
def isInternal : Error → Bool
  | internal _ _ => true
  | _ => false

/-- The place an error points at, behind its opening words. -/
def placeText : Option OpId → String
  | some op => " at " ++ op.text
  | none => ""

/-- The text of the error, with the op it stands at. -/
def message : Error → String
  | internal op cause => "internal lowering error" ++ placeText op ++ ": " ++ cause.message
  | contract op cause => "malformed structured input" ++ placeText op ++ ": " ++ cause.message
  | diagnostic d => d.text
  | generic text => "Generic error: " ++ text

/-- The record of an error that leaves a stage. Anything but a broken invariant counts as the
input's fault. -/
def report (stage : String) (e : Error) : Diagnostic where
  stage := stage
  message := e.message
  code := some (if e.isInternal then "internal" else "contract")
  hint := e.op?.map fun op => "inspect " ++ op.text

end Error

/-- Why an operation on a function stopped. -/
inductive Stop where
  | failed (error : Error)
  /-- A node or a position that does not exist, or a margin too wide to write, was asked for. -/
  | outOfRange
  /-- A statement used a name that was never bound. -/
  | unbound (name : String)
  /-- The nesting of the function has no bottom. -/
  | endless
  deriving DecidableEq, Inhabited

namespace Stop

/-- Stops at a breach that no op is blamed for. -/
def internal (cause : Breach) : Stop := failed (.internal none cause)

/-- Stops at a breach that an op is blamed for. -/
def internalAt (op : OpId) (cause : Breach) : Stop := failed (.internal (some op) cause)

/-- Stops at an op that is malformed. -/
def contractAt (op : OpId) (cause : Malformed) : Stop := failed (.contract (some op) cause)

end Stop

end Unnest
