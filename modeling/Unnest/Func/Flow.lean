import Unnest.Func.Basic
import Unnest.Table
/-!
# Control flow of the body

The edges of a function lead from a block of the body to the successors of its terminator.
-/

namespace Unnest.Func

/-- The blocks a block of the body may go to. -/
def successors (f : Func) (block : BlockId) : Except Stop (List BlockId) := do
  match ← f.terminator block with
  | some last => return (← f.kind last).successors
  | none => return []

/-- Notes an edge, once per source. -/
def addEdge (source : BlockId) (preds : Table BlockId (List BlockId)) (target : BlockId) :
    Table BlockId (List BlockId) :=
  let known := (preds.get? target).getD []
  if source ∈ known then preds.insert target known else preds.insert target (known ++ [source])

/-- For every block of the body, and every other block that one of them names, the blocks of the
body that lead to it. -/
def predecessors (f : Func) : Except Stop (Table BlockId (List BlockId)) := do
  let body ← f.bodyBlocks
  let start : Table BlockId (List BlockId) := body.foldl (fun t b => t.insert b []) {}
  body.foldlM (fun preds block => return (← f.successors block).foldl (addEdge block) preds) start

end Unnest.Func
