import Unnest.Lower.Basic
/-!
# Binding jumps

When a loop, switch or labelled block is lowered, the jumps nested in it that refer to it are
bound. An unlabelled `brk` refers to the nearest loop or switch, an unlabelled `cont` to the
nearest loop, and a labelled jump to the nearest construct with its label, whatever lies between.
The scan goes downward from the construct and notes what the constructs on the way hide.
-/

namespace Unnest

/-- Which references the constructs between a construct and an op below it hide. -/
structure Shadow where
  breaks : Bool := false
  continues : Bool := false
  label : Bool := false
  deriving DecidableEq, Inhabited

/-- What is hidden inside an op that lies below a construct with the given label. -/
def Shadow.enter (s : Shadow) (nested : OpKind) (label : Option String) : Shadow where
  breaks := s.breaks || nested.isBreakable
  continues := s.continues || nested.isLoop
  label := s.label || (label.isSome && nested.label? == label)

/-- Whether an op that lies below a construct is a jump that refers to the construct. -/
def Construct.isNamedBy (c : Construct) (s : Shadow) : OpKind → Bool
  | .construct (.brk none) => c.isBreakable && !s.breaks
  | .construct (.cont none) => c.isLoop && !s.continues
  | .construct (.brk (some name)) | .construct (.cont (some name)) =>
    c.label? == some name && !s.label
  | _ => false

namespace Nest

mutual

/-- The jumps among the ops and below that refer to a construct above them. -/
def Ops.jumpsTo (f : Func) (c : Construct) (s : Shadow) : Ops → List OpId
  | .nil => []
  | .cons op regions rest =>
    let kind := (f.op? op).map (·.kind)
    let inner := (kind.map fun k => s.enter k c.label?).getD s
    (if (kind.map (c.isNamedBy s)).getD false then [op] else []) ++
      regions.jumpsTo f c inner ++ rest.jumpsTo f c s

/-- The jumps under blocks that a construct catches. -/
def Blocks.jumpsTo (f : Func) (c : Construct) (s : Shadow) : Blocks → List OpId
  | .nil => []
  | .cons _ ops rest => ops.jumpsTo f c s ++ rest.jumpsTo f c s

/-- The jumps under regions that a construct catches. -/
def Regions.jumpsTo (f : Func) (c : Construct) (s : Shadow) : Regions → List OpId
  | .nil => []
  | .cons _ blocks rest => blocks.jumpsTo f c s ++ rest.jumpsTo f c s

end

end Nest

/-- Where the jumps that refer to a construct go. -/
structure JumpTargets where
  breakTo : BlockId
  /-- None for a construct that a `cont` cannot name. -/
  continueTo : Option BlockId

namespace Lower

/-- Binds a jump. Jumps carry no values, so the target must not ask for any. -/
def bindJump (targets : JumpTargets) (op : OpId) : Lower Unit := do
  let target ←
    match ← Edit.getKind op, targets.continueTo with
    | .construct (.brk _), _ => pure targets.breakTo
    | _, some block => pure block
    | _, none => throw (.contractAt op .continueNamesSwitch)
  let count := (← Edit.getBlock target).args.length
  if count ≠ 0 then
    throw (.contractAt op (.jumpNeedsValues target count))
  settle (·.setJump op (.block target))

/-- Binds every jump below the given blocks that refers to the construct they belong to. -/
def bindJumps (c : Construct) (blocks : List BlockId) (targets : JumpTargets) : Lower Unit := do
  let f ← getFunc
  let nest ← f.blocksNest blocks
  (nest.jumpsTo f c {}).forM (bindJump targets)

end Lower

end Unnest
