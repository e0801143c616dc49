import Unnest.Lower.Flatten
import Unnest.Program
/-!
# Lowering a program

The functions of a program are lowered one after another up to the first failure, or shared out in
runs of neighbours to workers. A worker goes on after a failure; the result is then the failure of
the first function in program order that has one. Every failure is reported.
-/

namespace Unnest

/-- What the lowering of several functions leaves: the functions, its result, and the records of
the failures. -/
structure Batch (α : Type) where
  funcs : List Func
  result : α
  diagnostics : List Diagnostic

/-- The record of a stopped lowering, if it stopped with an error. -/
def Stop.recorded : Stop → List Diagnostic
  | failed e => [e.report "lower"]
  | _ => []

namespace Lower

/-- Lowers functions up to the first failure. -/
def lowerAll (types : TypeTable) (o : LowerOptions) :
    List Func → Batch (Except Stop (List LowerStats))
  | [] => { funcs := [], result := .ok [], diagnostics := [] }
  | f :: rest =>
    match lowerFunc types o f with
    | .error e f => { funcs := f :: rest, result := .error e, diagnostics := e.recorded }
    | .ok stats f =>
      let others := lowerAll types o rest
      { others with funcs := f :: others.funcs, result := (stats :: ·) <$> others.result }

/-- What one worker does with its functions. It has no result when it breaks off, which it does
when a lowering stops without an error. -/
def lowerShare (types : TypeTable) (o : LowerOptions) :
    List Func → Batch (Option (List (Except Stop LowerStats)))
  | [] => { funcs := [], result := some [], diagnostics := [] }
  | f :: rest =>
    match lowerFunc types o f with
    | .ok stats f =>
      let others := lowerShare types o rest
      { others with funcs := f :: others.funcs, result := others.result.map (.ok stats :: ·) }
    | .error (.failed e) f =>
      let others := lowerShare types o rest
      { funcs := f :: others.funcs
        result := others.result.map (.error (.failed e) :: ·)
        diagnostics := e.report "lower" :: others.diagnostics }
    | .error _ f => { funcs := f :: rest, result := none, diagnostics := [] }

/-- The results of a worker; one that broke off counts as a single failure. -/
def shareResults : Option (List (Except Stop LowerStats)) → List (Except Stop LowerStats)
  | some results => results
  | none => [.error (.failed (.generic "lowering worker panicked"))]

/-- Cuts a list into runs of `size` neighbours; the last may be shorter. -/
def shares {α : Type} (size : Nat) : Nat → List α → List (List α)
  | 0, _ => []
  | _, [] => []
  | count + 1, l => l.take size :: shares size count (l.drop size)

/-- Lowers functions that are shared out in runs of the given size. -/
def lowerInShares (types : TypeTable) (o : LowerOptions) (size : Nat) (funcs : List Func) :
    Batch (Except Stop (List LowerStats)) :=
  let done := (shares size funcs.length funcs).map (lowerShare types o)
  { funcs := done.flatMap (·.funcs)
    result := (done.flatMap fun share => shareResults share.result).mapM id
    diagnostics := done.flatMap (·.diagnostics) }

/-- Lowers functions that are shared out to the given number of workers. -/
def lowerShared (types : TypeTable) (o : LowerOptions) (workers : Nat) (funcs : List Func) :
    Batch (Except Stop (List LowerStats)) :=
  lowerInShares types o (max 1 ((funcs.length + workers - 1) / workers)) funcs

end Lower

namespace Program

/-- A program whose functions were lowered, with the result and the records of the failures. -/
def withBatch (p : Program) (batch : Batch (Except Stop (List LowerStats))) :
    Program × Except Stop (List LowerStats) × List Diagnostic :=
  ({ p with funcs := batch.funcs }, batch.result, batch.diagnostics)

/-- Lowers the functions of a program, alone or with the given number of workers. -/
def lower (p : Program) (o : LowerOptions) (workers : Option Nat) :
    Program × Except Stop (List LowerStats) × List Diagnostic :=
  p.withBatch <|
    match workers with
    | none => Lower.lowerAll p.types o p.funcs
    | some workers => Lower.lowerShared p.types o workers p.funcs

end Program

end Unnest
