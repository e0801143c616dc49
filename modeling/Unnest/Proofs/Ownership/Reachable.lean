import Unnest.Proofs.Ownership.Lowering
import Unnest.Proofs.Statements
/-!
# Ownership in every state

A function is reached by building it, by edits, by lowering it and by tidying it, in any order and
however often; a call that fails also leaves a function behind. Every step keeps ownership, so every
reachable function owns its nodes.

Edits that place nodes are asked to place live nodes without an owner into live owners, each once.
Nothing else is asked: a region may even be placed within itself.
-/

namespace Unnest

open Func

variable {σ α : Type}

/-- `x` takes `s` to `s'`, by ending or by a clean stop. -/
def Leaves (x : EStateM Stop σ α) (s s' : σ) : Prop :=
  (∃ a, x s = .ok a s') ∨ ∃ e : Stop, e.Clean ∧ x s = .error e s'

theorem Keeps.leaves {I : σ → Prop} {x : EStateM Stop σ α} {s s' : σ} {Q : α → σ → Prop}
    (h : Keeps I x s Q) (hq : ∀ a t, Q a t → I t) (hx : Leaves x s s') : I s' := by
  unfold Keeps at h
  obtain ⟨a, ha⟩ | ⟨e, he, ha⟩ := hx
  · rw [ha] at h
    exact hq a s' h
  · rw [ha] at h
    exact h he

theorem leaves_left {x : EStateM Stop σ α} {s : σ} (h : ends x s = true) :
    Leaves x s (left x s) := by
  unfold ends at h
  unfold Leaves left
  cases hx : x s with
  | ok a s' => exact .inl ⟨a, rfl⟩
  | error e s' => simp [hx] at h

namespace Edit

/-- The edits of a function. -/
inductive Call where
  | newRegion (parent : Option OpId)
  | newBlock (tys : List Ty)
  | addBlockArg (b : BlockId) (ty : Ty)
  | createOp (kind : OpKind) (operands : List ValueId) (tys : List Ty) (regions : Nat)
  | setSpan (op : OpId) (span : Option Span)
  | replaceKind (op : OpId) (kind : OpKind)
  | setOperands (op : OpId) (operands : List ValueId)
  | replaceAllUses (old new : ValueId)
  | appendBlock (r : RegionId) (b : BlockId)
  | insertBlockAfter (anchor b : BlockId)
  | spliceBefore (anchor : BlockId) (l : List BlockId)
  | takeRegion (r : RegionId)
  | appendOp (b : BlockId) (op : OpId)
  | insertOpAtStart (b : BlockId) (op : OpId)
  | insertOpBefore (anchor op : OpId)
  | insertOpAfter (anchor op : OpId)
  | emitBefore (anchor : OpId) (kind : OpKind) (operands : List ValueId) (tys : List Ty)
  | emitAfter (anchor : OpId) (kind : OpKind) (operands : List ValueId) (tys : List Ty)
  | emitAtEnd (b : BlockId) (kind : OpKind) (operands : List ValueId) (tys : List Ty)
  | detachOp (op : OpId)
  | splitAfter (op : OpId)
  | eraseOp (op : OpId)
  | eraseBlock (b : BlockId)
  | discardBlocks (l : List BlockId)
  | cloneRegion (r : RegionId)

namespace Call

/-- Runs the edit that the call names. -/
def run : Call → Edit Unit
  | newRegion parent => discard (Edit.newRegion parent)
  | newBlock tys => discard (Edit.newBlock tys)
  | addBlockArg b ty => discard (Edit.addBlockArg b ty)
  | createOp kind operands tys regions => discard (Edit.createOp kind operands tys regions)
  | setSpan op span => Edit.setSpan op span
  | replaceKind op kind => Edit.replaceKind op kind
  | setOperands op operands => Edit.setOperands op operands
  | replaceAllUses old new => Edit.replaceAllUses old new
  | appendBlock r b => Edit.appendBlock r b
  | insertBlockAfter anchor b => Edit.insertBlockAfter anchor b
  | spliceBefore anchor l => Edit.spliceBefore anchor l
  | takeRegion r => discard (Edit.takeRegion r)
  | appendOp b op => Edit.appendOp b op
  | insertOpAtStart b op => Edit.insertOpAtStart b op
  | insertOpBefore anchor op => Edit.insertOpBefore anchor op
  | insertOpAfter anchor op => Edit.insertOpAfter anchor op
  | emitBefore anchor kind operands tys => discard (Edit.emitBefore anchor kind operands tys)
  | emitAfter anchor kind operands tys => discard (Edit.emitAfter anchor kind operands tys)
  | emitAtEnd b kind operands tys => discard (Edit.emitAtEnd b kind operands tys)
  | detachOp op => Edit.detachOp op
  | splitAfter op => discard (Edit.splitAfter op)
  | eraseOp op => Edit.eraseOp op
  | eraseBlock b => Edit.eraseBlock b
  | discardBlocks l => Edit.discardBlocks l
  | cloneRegion r => discard (Edit.cloneRegion r)

/-- What is placed is alive, without an owner and listed once, and so is what is discarded; what it
is placed in is alive. -/
def Allowed (f : Func) : Call → Prop
  | appendBlock r b => f.Free b ∧ ∀ op d, f.op? op = some d → r ∈ d.regions → d.live = true
  | insertBlockAfter _ b => f.Free b
  | spliceBefore _ l => (∀ b ∈ l, f.Free b) ∧ l.Nodup
  | appendOp b op | insertOpAtStart b op => f.LiveBlock b ∧ f.Loose op
  | insertOpBefore _ op | insertOpAfter _ op => f.Loose op
  | emitAtEnd b .. => f.LiveBlock b
  | discardBlocks l => ∀ b ∈ l, f.ownerOfBlock b = none
  | _ => True

theorem run_keeps {f : Func} (h : f.Sound) (c : Call) (hc : c.Allowed f) :
    Keeps Sound c.run f fun _ f' => f'.Sound := by
  cases c with
  | newRegion parent => exact .map ((newRegion_keeps h parent).mono fun _ _ h' => h'.1)
  | newBlock tys => exact .map ((newBlock_keeps h tys).mono fun _ _ h' => h'.1)
  | addBlockArg b ty => exact .map ((addBlockArg_keeps h b ty).mono fun _ _ h' => h'.1)
  | createOp kind operands tys regions =>
    exact .map ((createOp_keeps h kind operands tys regions).mono fun _ _ h' => h'.1)
  | setSpan op span => exact (setSpan_keeps h op span).mono fun _ _ h' => h'.1
  | replaceKind op kind => exact (replaceKind_keeps h op kind).mono fun _ _ h' => h'.1
  | setOperands op operands => exact (setOperands_keeps h op operands).mono fun _ _ h' => h'.1
  | replaceAllUses old new => exact (replaceAllUses_keeps h old new).mono fun _ _ h' => h'.1
  | appendBlock r b => exact (appendBlock_keeps h hc.1 hc.2).mono fun _ _ h' => h'.1
  | insertBlockAfter anchor b => exact (insertBlockAfter_keeps h hc).mono fun _ _ h' => h'.1
  | spliceBefore anchor l => exact (spliceBefore_keeps h hc.1 hc.2).mono fun _ _ h' => h'.1
  | takeRegion r => exact .map ((takeRegion_eq r).mono fun _ _ h' => h'.2 ▸ h.takeBlocks)
  | appendOp b op => exact (appendOp_keeps h hc.1 hc.2).mono fun _ _ h' => h'.1
  | insertOpAtStart b op => exact (insertOpAtStart_keeps h hc.1 hc.2).mono fun _ _ h' => h'.1
  | insertOpBefore anchor op => exact (insertOpBefore_keeps h hc).mono fun _ _ h' => h'.1
  | insertOpAfter anchor op => exact (insertOpAfter_keeps h hc).mono fun _ _ h' => h'.1
  | emitBefore anchor kind operands tys =>
    exact .map ((emitBefore_keeps h anchor kind operands tys).mono fun _ _ h' => h'.1)
  | emitAfter anchor kind operands tys =>
    exact .map ((emitAfter_keeps h anchor kind operands tys).mono fun _ _ h' => h'.1)
  | emitAtEnd b kind operands tys =>
    exact .map ((emitAtEnd_keeps h hc kind operands tys).mono fun _ _ h' => h'.1)
  | detachOp op => exact (detachOp_keeps h op).mono fun _ _ h' => h'.1
  | splitAfter op => exact .map ((splitAfter_keeps h op).mono fun _ _ h' => h'.1)
  | eraseOp op => exact (eraseOp_keeps h op).mono fun _ _ h' => h'.1
  | eraseBlock b => exact eraseBlock_keeps h b
  | discardBlocks l => exact (discardBlocks_keeps h hc).mono fun _ _ h' => h'.1
  | cloneRegion r => exact .map ((cloneRegion_keeps h r).mono fun _ _ h' => h'.1)

end Call

end Edit

/-- The functions that building, editing, lowering and tidying can leave. A name that nothing is
bound to stops a builder between two of its calls, so what it holds halfway through a region is
among them. -/
inductive Func.Reachable : Func → Prop
  | built (name : String) (sig : Signature) (body : List Source.Stmt) {b : Builder} :
      Leaves (Source.buildAll body) (Builder.new name sig) b → Reachable b.func
  | edited (c : Edit.Call) {f f' : Func} :
      Reachable f → c.Allowed f → Leaves c.run f f' → Reachable f'
  | lowered (types : TypeTable) (o : LowerOptions) {f f' : Func} :
      Reachable f → Leaves (Lower.lowerFunc types o) f f' → Reachable f'
  | pruned {f f' : Func} : Reachable f → Leaves Tidy.prune f f' → Reachable f'
  | gathered {f f' : Func} : Reachable f → Leaves Tidy.gatherConstants f f' → Reachable f'

theorem Func.Reachable.sound {f : Func} (h : f.Reachable) : f.Sound := by
  induction h with
  | built name sig body hb =>
    exact (Source.buildAll_builds body _ _ (Source.building_new name sig)).leaves
      (fun _ _ h => h.1.sound) hb
  | edited c _ hc hx ih => exact (c.run_keeps ih hc).leaves (fun _ _ h => h) hx
  | lowered types o _ hx ih => exact (Lower.lowerFunc_keeps ih types o).leaves (fun _ _ h => h) hx
  | pruned _ hx ih => exact (Tidy.prune_keeps ih).leaves (fun _ _ h => h) hx
  | gathered _ hx ih => exact (Tidy.gatherConstants_keeps ih).leaves (fun _ _ h => h) hx

/-- In every reachable function the owners and what they list agree. -/
theorem Func.owned_of_reachable {f : Func} (h : f.Reachable) : f.Owned := h.sound.owned

/-- A call with a cleanup. -/
def Source.cleanedCall : List Source.Stmt :=
  [.entry none, .tryCatch [.call "read" [] [] []] [] [.call "close" [] [] []], .exit]

theorem Func.owned_cleanedCall :
    (left (Lower.lowerFunc {} default)
      (left (Source.buildAll Source.cleanedCall) (Builder.new "main" ⟨[], .void⟩)).func).Owned :=
  owned_of_reachable (.lowered {} default
    (.built "main" ⟨[], .void⟩ Source.cleanedCall (leaves_left (by decide +kernel)))
    (leaves_left (by decide +kernel)))

end Unnest
