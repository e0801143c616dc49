import Unnest.Text.Blank
/-!
# Targets, settings and lowering options

The defaults of a lowering follow from the target and from three settings, each an optional text.
A setting that is a switch is off when its text is empty, `0` or a spelling of false.
-/

namespace Unnest

/-- The systems the lowering knows of. -/
inductive Os where
  | linux
  | macos
  | windows
  | unknown
  deriving DecidableEq, Inhabited

namespace Os

/-- The name of a system. -/
def text : Os → String
  | linux => "linux"
  | macos => "macos"
  | windows => "windows"
  | unknown => "unknown"

/-- The system the library's own defaults are meant for. -/
def host : Os := linux

/-- The system a target triple names; without a triple it is the host. -/
def ofTriple : Option String → Os
  | none => host
  | some triple =>
    let triple := Text.lower triple
    if Text.occursIn "apple" triple || Text.occursIn "darwin" triple then macos
    else if Text.occursIn "windows" triple || Text.occursIn "mingw" triple then windows
    else if Text.occursIn "linux" triple then linux
    else unknown

end Os

/-- Where closure environments are allocated. -/
inductive CaptureStorage where
  | stack
  | heap
  deriving DecidableEq, Inhabited

/-- How the clone of a finally goes on when an enclosing try waits for the exception. -/
inductive UnwindStrategy where
  /-- A cleanup pad, whose end names the pad of the enclosing try. -/
  | chain
  /-- A pad that catches everything and throws again once the finally has run. -/
  | rethrow
  deriving DecidableEq, Inhabited

namespace UnwindStrategy

/-- How a system unwinds. -/
def forOs : Os → UnwindStrategy
  | .windows => chain
  | _ => rethrow

/-- The strategy of a name. -/
def ofName? : String → Option UnwindStrategy
  | "chain" | "chain-to-parent" => some chain
  | "rethrow" | "catch-and-rethrow" => some rethrow
  | _ => none

end UnwindStrategy

/-- The texts of the settings that were given. -/
structure Settings where
  captureInHeap : Option String := none
  unwindStrategy : Option String := none
  verify : Option String := none
  deriving DecidableEq, Inhabited

namespace Settings

/-- Whether the text of a switch turns it on. -/
def isOn (s : String) : Bool :=
  let s := Text.trim s
  !(s == "" || s == "0" || s == "false" || s == "FALSE" || s == "False")

/-- Closure environments live in the heap unless the setting says otherwise. -/
def capturesInHeap (s : Settings) : Bool := (s.captureInHeap.map isOn).getD true

/-- Lowered functions are checked unless the setting says otherwise. -/
def verifies (s : Settings) : Bool := (s.verify.map isOn).getD true

/-- The name of the strategy asked for, in lower case; a blank text asks for none. -/
def strategyName? (s : Settings) : Option String :=
  (s.unwindStrategy.map fun t => Text.lower (Text.trim t)).filter (· ≠ "")

end Settings

/-- What a lowering does beyond removing the constructs. -/
structure LowerOptions where
  capture : CaptureStorage
  unwind : UnwindStrategy
  verify : Bool
  cleanup : Bool
  relocate : Bool
  deriving DecidableEq, Inhabited

namespace LowerOptions

/-- The options for a target under the given settings. A strategy that is not known is ignored. -/
def forOs (settings : Settings) (os : Os) : LowerOptions where
  capture := if settings.capturesInHeap then .heap else .stack
  unwind := (settings.strategyName?.bind UnwindStrategy.ofName?).getD (.forOs os)
  verify := settings.verifies
  cleanup := true
  relocate := true

end LowerOptions

end Unnest
