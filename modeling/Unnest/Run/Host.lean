import Unnest.Run.Value
import Unnest.Table
/-!
# Hosts

A host answers the calls that the program does not answer itself, and keeps a log of them. What a
host function answers may depend on the calls made to it before. A callee that the host does not
know returns nothing.
-/

namespace Unnest

/-- What a call gives: its results, or the exception it raised. -/
abbrev CallResult := Except Thrown (List Value)

/-- A function of the host. It sees its own earlier calls and not those of the other functions. No
run is lost by that: where functions share state, the answers that one of them gives in a run can be
listed, and `sequence` gives them whatever the others are asked. -/
structure HostFn where
  /-- The answer to a call, given the arguments of the earlier ones. -/
  answer : Array (List Value) → List Value → CallResult
  past : Array (List Value) := #[]

namespace HostFn

/-- Returns the given values whatever the arguments. -/
def returning (values : List Value) : HostFn where
  answer _ _ := .ok values

/-- Raises the given exception whatever the arguments. -/
def throwing (thrown : Thrown) : HostFn where
  answer _ _ := .error thrown

/-- Returns its arguments. -/
def echo : HostFn where
  answer _ args := .ok args

/-- Gives the listed answers one after another, and then the last of them again and again. -/
def sequence (answers : List CallResult) : HostFn where
  answer past _ := answers[min past.size (answers.length - 1)]?.getD (.ok [])

end HostFn

/-- One call the host was asked for. -/
structure CallRecord where
  callee : String
  args : List Value
  deriving Inhabited

/-- The functions outside the program, and the calls they got so far. -/
structure Host where
  functions : Table String HostFn := {}
  log : Array CallRecord := #[]

namespace Host

/-- Gives a name a host function, in place of the one it had. -/
def register (h : Host) (name : String) (f : HostFn) : Host :=
  { h with functions := h.functions.insert name f }

/-- Answers a call and notes it in the log. -/
def call (h : Host) (callee : String) (args : List Value) : CallResult × Host :=
  let log := h.log.push { callee, args }
  match h.functions.get? callee with
  | some f =>
    (f.answer f.past args,
      { functions := h.functions.insert callee { f with past := f.past.push args }, log })
  | none => (.ok [], { h with log })

/-- How often a function was called since the log was cleared. -/
def count (h : Host) (callee : String) : Nat :=
  (h.log.filter (·.callee == callee)).size

/-- The names of the functions called, in order. -/
def trace (h : Host) : List String :=
  h.log.toList.map (·.callee)

/-- Forgets the calls so far. -/
def clear (h : Host) : Host := { h with log := #[] }

end Host

end Unnest
