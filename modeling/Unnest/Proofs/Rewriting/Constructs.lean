import Unnest.Lower.Flatten
import Unnest.Proofs.Ownership.Edits
import Unnest.Proofs.Rewriting.Steps
/-!
# The rewritings of the constructs

Each rewriting, taken apart into the steps that `Upkeep` lists (`lowerConstruct_lowers`). The split
behind a construct gives the place where its regions are laid out; the blocks that a try takes out,
clones and makes stay in hand until they are laid out too; and in the end nothing is left in hand.
-/

namespace Unnest

open Edit

variable {I : Hand → Func → Prop} {E : Func → Prop} {D : List OpId} {P : Hand} [hI : Upkeep I E]
  {α β : Type}

namespace Lower

variable {op : OpId} {next : BlockId}

/-! ## Shared steps -/

theorem truthValue_turns (x : OpId) (v : ValueId) : Turns I E P (truthValue x v) fun _ => P := by
  refine .read (valueTy_reads v) fun ty => ?_
  split
  · exact .pure rfl
  · exact .bind hI.before fun _ => .reads (result_reads _)

theorem numberBefore_turns (x : OpId) (value : Int64) :
    Turns I E P (numberBefore x value) fun _ => P :=
  .bind hI.before fun _ => .reads (result_reads _)

variable {x : OpId}

theorem endBranch_turns (hx : x ∈ P.ends) {target : BlockId} {args : List ValueId} :
    Turns I E P (makeBranch x target args) fun _ => P :=
  .bind (hI.endKind hx) fun _ => hI.operands

variable {r : RegionId}

theorem inlineRegion_turns (hP : P.site = .last op next) (hr : r ∈ P.regions) :
    Turns I E P (inlineRegion r next) fun _ => { P with ends := [] } :=
  .bind (hI.take hP hr) fun _ => .bind (hI.splice hP rfl) fun _ => .pure rfl

variable {c : Construct}

theorem regionOf_turns (hP : P.site = .whole op c) (index : Nat) :
    Turns I E P (regionOf op index) fun r => { P with regions := r :: P.regions } := by
  refine fun f hf => .getOp fun d hd => ?_
  split
  · rename_i r hr
    exact .pure (hI.region hf hP hd (List.mem_of_getElem? hr))
  · exact .throw (hI.bears hf)

theorem terminatorsWhere_turns {p : OpKind → Bool} (hp : ∀ k, p k = true → k.isTerminator = true)
    (blocks : List BlockId) :
    Turns I E P (terminatorsWhere blocks p) fun terms => { P with ends := terms } := by
  refine fun f hf => .read (Reads.mapM terminator_reads blocks) (hI.bears hf) fun ends _ => ?_
  refine .get (.pure (hI.marks hf fun x hx => ?_))
  have hk := (List.mem_filter.mp hx).2
  unfold Func.kindIs at hk ⊢
  cases hd : f.op? x with
  | none => simp [hd] at hk
  | some d => simp_all

/-- Edits of ends of blocks one after another. -/
theorem forEnds_turns {terms : List OpId} {k : OpId → Edit PUnit}
    (hk : ∀ x ∈ terms, Turns I E { P with ends := terms } (k x) fun _ => { P with ends := terms }) :
    Turns I E { P with ends := terms } (terms.forM k) fun _ => { P with ends := [] } :=
  .imp (.forM hk) fun _ _ hs => hI.marks (P := { P with ends := terms }) hs (by simp)

theorem isTerminator_of_eq (hc : c.isTerminator = true) (k : OpKind)
    (h : (k == .construct c) = true) : k.isTerminator = true := by
  rw [eq_of_beq h]
  exact hc

theorem isTerminator_of_isYield : ∀ k : OpKind, k.isYield = true → k.isTerminator = true :=
  isTerminator_of_eq rfl

/-- The results of a construct become arguments of what follows it. -/
theorem continuation_turns (hP : P.site = .whole op c) (hc : c.isTerminator = false) :
    Turns I E P (continuation op) fun next => { site := .last op next, regions := P.regions } := by
  refine .bind (hI.cut hP hc) fun next => .read (getOp_reads op) fun d => ?_
  refine .of_imp ?_ fun f hf => hI.loosen hf rfl
  refine .bind (.forM fun v _ => ?_) fun _ => .pure rfl
  exact .read (valueTy_reads v) fun ty => .bind hI.arg fun arg => hI.uses

theorem lowerCondition_turns (hx : x ∈ P.ends) (thenTo elseTo : BlockId) :
    Turns I E P (lowerCondition thenTo elseTo x) fun _ => P := by
  refine .read (getOp_reads x) fun d => ?_
  split
  · exact .throw
  · exact .bind (truthValue_turns x _) fun _ => .bind (hI.endKind hx) fun _ => hI.operands

theorem yieldsTo_turns (blocks : List BlockId) (target : BlockId) :
    Turns I E P (yieldsTo blocks target) fun _ => { P with ends := [] } :=
  .bind (terminatorsWhere_turns isTerminator_of_isYield blocks) fun _ => forEnds_turns fun x hx =>
    .read (getOp_reads x) fun _ => endBranch_turns hx

theorem conditionsTo_turns (blocks : List BlockId) (thenTo elseTo : BlockId) :
    Turns I E P (conditionsTo blocks thenTo elseTo) fun _ => { P with ends := [] } :=
  .bind (terminatorsWhere_turns (isTerminator_of_eq rfl) blocks) fun _ => forEnds_turns fun _ hx =>
    lowerCondition_turns hx thenTo elseTo

/-! ## Steps on the lowering itself -/

/-- At the end of a rewriting everything is let go. -/
theorem let_go {x : Lower α} {Q : α → Hand} (h : Lowers I E D P x Q)
    (hQ : ∀ a, (Q a).site = .done) : Lowers I E D P x fun _ => {} :=
  .imp h fun a _ hs => ⟨hQ a ▸ hI.drop hs.1, hs.2⟩

theorem forEnds_lowers {terms : List OpId} {k : OpId → Lower PUnit}
    (hk : ∀ x ∈ terms, Lowers I E D { P with ends := terms } (k x) fun _ =>
      { P with ends := terms }) :
    Lowers I E D { P with ends := terms } (terms.forM k) fun _ => { P with ends := [] } :=
  .imp (.forM hk) fun _ _ hs =>
    ⟨hI.marks (P := { P with ends := terms }) hs.1 (by simp), hs.2⟩

variable {s : LowerState}

theorem blockOf_keeps {k : BlockId → Lower α} {Q : α → LowerState → Prop} (hs : E s.func)
    (hk : ∀ b, s.func.ownerOfOp op = some b → Keeps (fun s => E s.func) (k b) s Q) :
    Keeps (fun s => E s.func) (blockOf op >>= k) s Q := by
  refine .bind (m := fun b s' => s' = s ∧ s.func.ownerOfOp op = some b) ?_ ?_
  · refine .editBind (getOp_keeps op) ?_
    rintro d _ ⟨rfl, hd⟩
    split
    · rename_i b hp
      exact .pure ⟨rfl, by simp [Func.ownerOfOp, hd, hp]⟩
    · exact .throw hs
  · rintro b _ ⟨rfl, hb⟩
    exact hk b hb

/-- A construct dies and its block ends in a transfer. -/
theorem endBlock_lowers (hP : P.site = .last op next) {t : Transfer} {args : List ValueId} :
    Lowers I E D P (do
      let before ← blockOf op
      eraseOp op
      let _ ← emitAtEnd before (.transfer t) args []) fun _ => {} :=
  fun _ hs => blockOf_keeps (hI.bears hs.1) fun _ hb =>
    .editBind (hI.close hs.1 hP hb) fun _ _ h₁ => .editBind h₁ fun _ _ h₂ => .pure ⟨h₂, hs.2⟩

theorem replaceWithBranch_lowers (hP : P.site = .last op next) (target : BlockId)
    (args : List ValueId) : Lowers I E D P (replaceWithBranch op target args) fun _ => {} :=
  endBlock_lowers hP

theorem cutRest_lowers (hP : P.site = .turned op) : Lowers I E D P (cutRest op) fun _ => {} := by
  refine fun s hs => blockOf_keeps (hI.bears hs.1) fun b hb => ?_
  have hblock : Keeps E (getBlock b) s.func fun d f => f = s.func ∧ d.ops = s.func.opsIn b := by
    rw [← bind_pure (getBlock b)]
    exact .getBlock fun d hd => .pure ⟨rfl, by simp [Func.opsIn, hd]⟩
  refine .editBind hblock ?_
  rintro d _ ⟨rfl, hd⟩
  rw [hd]
  split
  · rename_i hlast
    exact .editBind (hI.cutRest hs.1 hP hb hlast) fun _ _ h => .pure ⟨h, hs.2⟩
  · rename_i hlast
    exact .pure ⟨hI.noRest hs.1 hP hb (not_not.mp hlast), hs.2⟩

theorem bindJump_lowers (targets : JumpTargets) (x : OpId) :
    Lowers I E D P (bindJump targets x) fun _ => P := by
  have bound (target : BlockId) : Lowers I E D P (do
      let count := (← getBlock target).args.length
      if count ≠ 0 then
        throw (.contractAt x (.jumpNeedsValues target count))
      settle (·.setJump x (.block target)) : Lower Unit) fun _ => P := by
    refine .editRead (getBlock_reads target) fun bd => ?_
    dsimp only
    split
    · exact .throwBind
    · exact .settle fun _ => rfl
  refine .editRead (getKind_reads x) fun k => ?_
  dsimp only
  split
  · exact bound _
  · exact bound _
  · exact .throwBind

theorem bindJumps_lowers (c : Construct) (blocks : List BlockId) (targets : JumpTargets) :
    Lowers I E D P (bindJumps c blocks targets) fun _ => P :=
  .read getFunc_reads fun _ => .read (.lift _) fun _ => .forM fun x _ => bindJump_lowers targets x

/-! ## Branches, loops, switches and labelled blocks -/

theorem lowerWhile_lowers (label : Option String) :
    Lowers I E D { site := .whole op (.whileLoop label) } (lowerWhile op (.whileLoop label))
      fun _ => {} := by
  refine .editRead (getOp_reads op) fun d => ?_
  refine .editBind (regionOf_turns rfl 0) fun condRegion => ?_
  refine .editBind (regionOf_turns rfl 1) fun bodyRegion => ?_
  refine .editBind (continuation_turns rfl rfl) fun next => ?_
  refine .editBind (inlineRegion_turns rfl (by simp)) fun condBlocks => ?_
  refine .editBind (inlineRegion_turns rfl (by simp)) fun bodyBlocks => ?_
  refine .editRead (entryOf_reads _ _ _) fun condEntry => ?_
  refine .editRead (entryOf_reads _ _ _) fun bodyEntry => ?_
  refine .bind (bindJumps_lowers _ _ _) fun _ => ?_
  refine .editBind (conditionsTo_turns _ _ _) fun _ => .editBind (yieldsTo_turns _ _) fun _ => ?_
  exact replaceWithBranch_lowers rfl _ _

theorem lowerDoWhile_lowers (label : Option String) :
    Lowers I E D { site := .whole op (.doWhile label) } (lowerDoWhile op (.doWhile label))
      fun _ => {} := by
  refine .editRead (getOp_reads op) fun d => ?_
  refine .editBind (regionOf_turns rfl 0) fun bodyRegion => ?_
  refine .editBind (regionOf_turns rfl 1) fun condRegion => ?_
  refine .editBind (continuation_turns rfl rfl) fun next => ?_
  refine .editBind (inlineRegion_turns rfl (by simp)) fun bodyBlocks => ?_
  refine .editBind (inlineRegion_turns rfl (by simp)) fun condBlocks => ?_
  refine .editRead (entryOf_reads _ _ _) fun bodyEntry => ?_
  refine .editRead (entryOf_reads _ _ _) fun condEntry => ?_
  refine .bind (bindJumps_lowers _ _ _) fun _ => ?_
  refine .editBind (yieldsTo_turns _ _) fun _ => .editBind (conditionsTo_turns _ _ _) fun _ => ?_
  exact replaceWithBranch_lowers rfl _ _

theorem lowerLoopTest_turns (hx : x ∈ P.ends) (bodyEntry next : BlockId) :
    Turns I E P (lowerLoopTest bodyEntry next x) fun _ => P := by
  refine .read (getKind_reads x) fun k => ?_
  split
  · exact endBranch_turns hx
  · exact lowerCondition_turns hx _ _

theorem lowerFor_lowers (label : Option String) :
    Lowers I E D { site := .whole op (.forLoop label) } (lowerFor op (.forLoop label))
      fun _ => {} := by
  refine .editBind (regionOf_turns rfl 0) fun condRegion => ?_
  refine .editBind (regionOf_turns rfl 1) fun bodyRegion => ?_
  refine .editBind (regionOf_turns rfl 2) fun incrRegion => ?_
  refine .editBind (continuation_turns rfl rfl) fun next => ?_
  refine .editBind (inlineRegion_turns rfl (by simp)) fun condBlocks => ?_
  refine .editBind (inlineRegion_turns rfl (by simp)) fun bodyBlocks => ?_
  refine .editBind (inlineRegion_turns rfl (by simp)) fun incrBlocks => ?_
  refine .editRead (entryOf_reads _ _ _) fun condEntry => ?_
  refine .editRead (entryOf_reads _ _ _) fun bodyEntry => ?_
  refine .bind (bindJumps_lowers _ _ _) fun _ => ?_
  refine .editBind (terminatorsWhere_turns (fun k hk => ?_) _) fun tests => ?_
  · obtain hk | hk := Bool.or_eq_true_iff.mp hk
    · exact isTerminator_of_eq rfl k hk
    · exact isTerminator_of_eq rfl k hk
  refine .bind (forEnds_lowers fun x hx => .edit (lowerLoopTest_turns hx _ _)) fun _ => ?_
  refine .editBind (yieldsTo_turns _ _) fun _ => .editBind (yieldsTo_turns _ _) fun _ => ?_
  exact replaceWithBranch_lowers rfl _ _

theorem lowerMerging_lowers (hc : c.isTerminator = false) :
    Lowers I E D { site := .whole op c } (lowerMerging op c) fun _ => {} := by
  refine .editBind (regionOf_turns rfl 0) fun bodyRegion => ?_
  refine .editBind (continuation_turns rfl hc) fun next => ?_
  refine .editBind (inlineRegion_turns rfl (by simp)) fun blocks => ?_
  refine .bind (bindJumps_lowers _ _ _) fun _ => ?_
  refine .editBind (terminatorsWhere_turns (isTerminator_of_eq rfl) _) fun terms => ?_
  refine .bind (forEnds_lowers fun x hx => .edit (endBranch_turns hx)) fun _ => ?_
  exact replaceWithBranch_lowers rfl _ _

theorem lowerBranch_lowers :
    Lowers I E D { site := .whole op .branch } (lowerBranch op) fun _ => {} := by
  refine .editRead (getOp_reads op) fun d => ?_
  split
  · exact .throw
  refine .editBind (regionOf_turns rfl 0) fun thenRegion => ?_
  refine .editBind (regionOf_turns rfl 1) fun elseRegion => ?_
  refine .editBind (truthValue_turns op _) fun flag => ?_
  refine .editBind (continuation_turns rfl rfl) fun next => ?_
  refine .editBind (inlineRegion_turns rfl (by simp)) fun thenBlocks => ?_
  refine .editBind (inlineRegion_turns rfl (by simp)) fun elseBlocks => ?_
  dsimp only
  split
  · exact .throwBind
  · exact .editBind (yieldsTo_turns _ _) fun _ => .editBind (yieldsTo_turns _ _) fun _ =>
      endBlock_lowers rfl

/-! ## Calls, jumps and returns -/

theorem lowerCall_lowers (hc : c.isTerminator = false) (callee : Callee) (plain : Instr) :
    Lowers I E D { site := .whole op c } (lowerCall op callee plain) fun _ => {} := by
  refine .read getBindings_reads fun b => ?_
  split
  · exact let_go (.edit (hI.runKind rfl hc)) fun _ => rfl
  · exact .editBind (hI.cut rfl hc) fun next => .editBind (hI.splitKind rfl) fun _ => .count _

theorem lowerThrow_lowers :
    Lowers I E D { site := .whole op .throw } (lowerThrow op) fun _ => {} := by
  refine .read getBindings_reads fun b => ?_
  split
  · exact .editBind (hI.leaveKind rfl rfl) fun _ => cutRest_lowers rfl
  · exact .editBind (hI.leaveKind rfl rfl) fun _ => cutRest_lowers rfl

theorem endCatches_turns (x : OpId) (n : Nat) : Turns I E P (endCatches x n) fun _ => P := by
  induction n with
  | zero => exact .pure rfl
  | succ n ih => exact .bind hI.before fun _ => ih

/-- An op becomes a branch, and what follows it is cut off. -/
theorem leaveTo_lowers (hP : P.site = .whole op c) (hc : c.isTerminator = false)
    (target : BlockId) :
    Lowers I E D P (do makeBranch op target []; cutRest op : Lower Unit) fun _ => {} :=
  .editBind (.bind (hI.leaveKind hP hc) fun _ => hI.operands) fun _ => cutRest_lowers rfl

theorem leave_lowers (hP : P.site = .whole op c) (hc : c.isTerminator = false)
    (dest : Destination) : Lowers I E D P (leave op dest) fun _ => {} := by
  refine .read getBindings_reads fun b => .editBind (endCatches_turns op _) fun _ => ?_
  dsimp only
  split
  · exact leaveTo_lowers hP hc _
  · exact .read (.lift _) fun target => leaveTo_lowers hP hc target
  · exact .read (.lift _) fun route => .editBind (numberBefore_turns op _) fun _ =>
      .editBind hI.before fun _ => leaveTo_lowers hP hc _

theorem lowerReturn_lowers (hP : P.site = .whole op c) (hc : c.isTerminator = false) :
    Lowers I E D P (lowerReturn op) fun _ => {} :=
  .read getBindings_reads fun _ => leave_lowers hP hc _

theorem storeReturnValue_turns (x : OpId) : Turns I E P (storeReturnValue x) fun _ => P := by
  refine .read (getOp_reads x) fun d => ?_
  split
  · exact .bind hI.before fun _ => .pure rfl
  · exact .throw

theorem lowerYieldVal_lowers :
    Lowers I E D { site := .whole op .yieldVal } (lowerYieldVal op) fun _ => {} :=
  .editBind (storeReturnValue_turns op) fun _ => .read getBindings_reads fun _ =>
    .read (.lift _) fun _ => leaveTo_lowers rfl rfl _

theorem lowerExit_lowers :
    Lowers I E D { site := .whole op .exit } (lowerExit op) fun _ => {} :=
  .read getBindings_reads fun _ => .read (.lift _) fun _ =>
    .edit (.bind (hI.exitKind rfl rfl) fun _ => hI.operands)

theorem lowerEntry_lowers :
    Lowers I E D { site := .whole op .entry } (lowerEntry op) fun _ => {} := by
  have added {k : BlockId → Func → Lower Unit}
      (hk : ∀ b f, Lowers I E D { site := .opened b } (k b f) fun _ => {}) :
      Lowers I E D {} (do
        let block ← newBlock []
        let f ← getFunc
        appendBlock f.body block
        k block f) fun _ => {} :=
    fun _ hs => .editBind (hI.append hs.1) fun b f h => .editBind h fun _ _ h' =>
      hk b f _ ⟨h', hs.2⟩
  refine .editRead (result?_reads op) fun slot => ?_
  cases slot with
  | some slot =>
    refine .bind (let_go (.edit (hI.runKind rfl rfl)) fun _ => rfl) fun _ => added fun b f => ?_
    exact .editBind hI.emitOpen fun load => .editRead (result_reads load) fun _ =>
      .editBind hI.finishOpen fun _ => .settle fun _ => rfl
  | none =>
    refine .editBind (hI.erase rfl rfl) fun _ => added fun b f => ?_
    exact .editBind hI.finishOpen fun _ => .settle fun _ => rfl

/-! ## Resume points and captures -/

theorem lowerStateLabel_lowers :
    Lowers I E D { site := .whole op .stateLabel } (lowerStateLabel op) fun _ => {} :=
  .editBind (hI.cut rfl rfl) fun _ =>
    .editBind (.bind (hI.splitKind rfl) fun _ => hI.operands) fun _ =>
      .bind (.settle fun _ => rfl) fun _ => .count _

theorem storeFields_turns (env : ValueId) (index : Nat) (anchor : OpId)
    (fields : List (ValueId × Ty)) :
    Turns I E { runs := [anchor] } (storeFields env index anchor fields) fun _ => {} := by
  induction fields generalizing index anchor with
  | nil => exact .imp (Q := fun _ => { runs := [anchor] }) (.pure rfl) fun _ _ hs => hI.drop hs
  | cons p rest ih =>
    have store (anchor : OpId) (stored : ValueId) : Turns I E { runs := [anchor] } (do
        let ref ← emitAfter anchor (.instr (.fieldRef index)) [env] [.ref p.2]
        let store ← emitAfter ref (.instr .store) [stored, ← result ref] []
        storeFields env (index + 1) store rest) fun _ => {} :=
      .bind hI.after fun _ => .read (result_reads _) fun _ =>
        .bind hI.after fun _ => ih _ _
    refine .read (valueTy_reads _) fun ty => ?_
    dsimp only
    split
    · exact .bind hI.after fun load => .read (result_reads _) fun v => store load v
    · exact store anchor p.1

theorem lowerCapture_lowers (storage : CaptureStorage) :
    Lowers I E D { site := .whole op .capture } (lowerCapture storage op) fun _ => {} := by
  refine .editRead (getOp_reads op) fun d => ?_
  split
  · exact .throw
  refine .editRead (valueTy_reads _) fun ty => ?_
  split
  · dsimp only
    split
    · exact .throwBind
    · exact .editBind (hI.runKind rfl rfl) fun _ => .editBind hI.operands fun _ =>
        .edit (storeFields_turns _ _ _ _)
  · exact .throw

/-! ## Try, catch and finally -/

theorem encloseTries_lowers (x : OpId) (r : RegionId) (placement : Placement) :
    Lowers I E D P (encloseTries x r placement) fun _ => P :=
  .read getFunc_reads fun _ => .read (.lift _) fun _ => .settleAll fun _ _ => rfl

theorem takeOrDiscard_turns (hP : P.site = .last op next) (hr : r ∈ P.regions) (keep : Bool) :
    Turns I E P (takeOrDiscard r keep) fun l => { P with free := l ++ P.free, ends := [] } := by
  refine .bind (hI.take hP hr) fun blocks => ?_
  split
  · exact .pure rfl
  · exact .bind (hI.discard hP rfl) fun _ => .pure rfl

theorem buildCleanupPad_turns (hP : P.site = .last op next) (clone : List BlockId)
    (entry : BlockId) (exit : CleanupExit) :
    Turns I E P (buildCleanupPad clone entry exit) fun pad =>
      { P with free := pad :: P.free, ends := [] } := by
  refine .bind (hI.draft hP) fun pad => .bind (hI.emit hP (by simp)) fun landing =>
    .read (result_reads landing) fun exception => ?_
  have hrest : Turns I E { P with drafts := pad :: P.drafts } (do
      let _ ← emitAtEnd pad (.transfer (.br entry)) [] []
      (← terminatorsWhere clone OpKind.isYield).forM fun term => do
        replaceKind term (.transfer exit.transfer)
        setOperands term [exception]
      return pad) fun pad => { P with free := pad :: P.free, ends := [] } :=
    .bind (hI.finish hP rfl) fun _ =>
      .bind (terminatorsWhere_turns isTerminator_of_isYield clone) fun _ =>
        .bind (forEnds_turns fun _ hx => .bind (hI.endKind hx) fun _ => hI.operands) fun _ =>
          .pure rfl
  dsimp only
  split
  · exact .bind (hI.emit hP (by simp)) fun _ => hrest
  · exact .bind (hI.emit hP (by simp)) fun _ => hrest

theorem buildLandingPad_turns (hP : P.site = .last op next) (entry : BlockId)
    (type : Option (Ty × TypeToken)) (cleanup outer : Option BlockId) :
    Turns I E P (buildLandingPad entry type cleanup outer) fun p =>
      { P with free := p.2.1 ++ P.free } := by
  refine .bind (hI.draft hP) fun pad => .bind (hI.emit hP (by simp)) fun landing =>
    .read (result_reads landing) fun exception => ?_
  split
  · exact .bind (hI.emit hP (by simp)) fun _ => .read (result_reads _) fun _ =>
      .bind (hI.finish hP rfl) fun _ => .pure rfl
  · refine .bind (hI.emit hP (by simp)) fun _ => .read (result_reads _) fun matched =>
      .bind (hI.draft hP) fun begin => .bind (hI.emit hP (by simp)) fun _ =>
        .read (result_reads _) fun payload =>
        .bind (hI.finish hP rfl) fun _ => .bind (hI.draft hP) fun mismatch => ?_
    have sorted (f : Func) (hf : I { P with free := pad :: mismatch :: begin :: P.free } f) :
        I { P with free := [pad, begin, mismatch] ++ P.free } f :=
      hI.sort (P := { P with free := pad :: mismatch :: begin :: P.free }) hf
        (.cons _ (.swap _ _ _))
    exact .bind (hI.finish hP rfl) fun _ => .bind (hI.finish hP rfl) fun _ =>
      .of_imp (.pure rfl) sorted

theorem padClone_turns (hP : P.site = .last op next) (clone : List BlockId)
    (exit : CleanupExit) :
    Turns I E P (padClone clone exit) fun pad =>
      { P with free := pad.toList ++ P.free, ends := [] } := by
  unfold padClone
  split
  · exact .of_imp (.pure rfl) fun f hf => hI.marks (l := []) hf (by simp)
  · exact .map (buildCleanupPad_turns hP _ _ _)

theorem cloneKept_lowers (hP : P.site = .last op next) (hr : r ∈ P.regions) (keep : Bool) :
    Lowers I E D P (cloneKept keep r) fun l => { P with free := l ++ P.free, ends := [] } := by
  unfold cloneKept
  split
  · exact .editBind (hI.clone hP hr) fun p => .bind (.settleAll fun _ _ => rfl) fun _ =>
      .bind (.count _) fun _ => .pure rfl
  · exact .of_imp (.pure rfl) fun s hs => ⟨hI.marks (l := []) hs.1 (by simp), hs.2⟩

theorem pending_assignCode (x : OpId) (l : List OpId) (p : Bindings × List (Int64 × Destination)) :
    (l.foldl (assignCode x) p).1.pending = p.1.pending := by
  induction l generalizing p with
  | nil => rfl
  | cons y l ih =>
    refine (ih _).trans ?_
    unfold assignCode
    dsimp only
    split <;> rfl

/-- The first block of the body is in the body. -/
theorem entryBlock_keeps {f : Func} :
    Keeps E entryBlock f fun e f' => f' = f ∧ ∀ b, e = some b → b ∈ f.blocksIn f.body := by
  change Keeps E (liftM f.entryBlock : Edit (Option BlockId)) f _
  unfold Func.entryBlock Func.bodyBlocks Func.region existing
  split
  · rename_i rd hrd
    refine .pure ⟨rfl, fun b hb => ?_⟩
    rw [Func.blocksIn, hrd]
    exact List.mem_of_mem_head? hb
  · exact .stop (by simp)

theorem routeThrough_lowers (hP : P.site = .last op next) (x : OpId) (entry : BlockId)
    (escapes : List OpId) :
    Lowers I E D P (routeThrough x entry escapes) fun _ => P := by
  refine fun s hs => .editBind entryBlock_keeps ?_
  rintro first _ ⟨rfl, hfirst⟩
  split
  · exact .throw (hI.bears hs.1)
  · have hrest (slot : ValueId) : Lowers I E D P (do
        let b ← getBindings
        let p := escapes.foldl (assignCode x) (b, [])
        settle fun _ => p.1.setRoute x { slot, entry, cases := p.2 }
        return slot : Lower ValueId) fun _ => P :=
      fun s hs => .of_ok rfl ⟨hs.1, (pending_assignCode x escapes _).trans hs.2⟩
    refine .editBind (hI.first hs.1 hP (hfirst _ rfl)) fun y f₁ h₁ => .editBind h₁ fun _ f₂ h₂ => ?_
    exact (Turns.editRead (result_reads y) fun slot => hrest slot) _ ⟨h₂, hs.2⟩

theorem routeEscapes_lowers (hP : P.site = .last op next) (x : OpId) (final : List BlockId)
    (escapes : List OpId) :
    Lowers I E D P (routeEscapes x final escapes) fun _ => P := by
  unfold routeEscapes
  split
  · exact .map (routeThrough_lowers hP _ _ _)
  · exact .pure rfl

theorem completeNormally_turns (slot : Option ValueId) (x : OpId) :
    Turns I E P (completeNormally slot x) fun _ => P := by
  unfold completeNormally
  split
  · exact .bind (numberBefore_turns _ _) fun _ => .bind hI.before fun _ => .pure rfl
  · exact .pure rfl

theorem unwindTo_lowers (ops : List OpId) (pad : BlockId) :
    Lowers I E D P (unwindTo ops pad) fun _ => P :=
  .read getFunc_reads fun _ => .settleAll fun _ _ => rfl

theorem unwindAll_lowers (pad : Option BlockId) (ops : List OpId) :
    Lowers I E D P (pad.forM (unwindTo ops)) fun _ => P := by
  cases pad with
  | none => exact .pure rfl
  | some pad => exact unwindTo_lowers ops pad

section

variable (hP : P.site = .last op next)

include hP

theorem padCatches_lowers (catches : List BlockId) (type : Option (Ty × TypeToken))
    (marks : List OpId) (cleanup outer : Option BlockId) :
    Lowers I E D P (padCatches next catches type marks cleanup outer) fun _ => P := by
  unfold padCatches
  split
  · exact .pure rfl
  · exact .editBind (buildLandingPad_turns hP _ _ _ _) fun p => .bind (.settleAll fun _ _ => rfl)
      fun _ => .editBind (hI.splice hP rfl) fun _ => .pure rfl

/-- The clone is the last of what was in hand. -/
theorem placeClone_turns {clone : List BlockId} {pad : Option BlockId}
    (hfree : P.free.Perm (pad.toList ++ clone)) :
    Turns I E P (placeClone next clone pad) fun _ => { site := .last op next } := by
  unfold placeClone
  split
  · rename_i b
    refine .of_imp ?_ fun f hf => hI.sort hf hfree
    refine .imp (hI.splice (P := { P with free := b :: clone }) hP (List.append_nil _).symm) ?_
    exact fun _ _ hf => hP ▸ hI.drop (P := { P with free := [] }) hf
  · exact .of_imp (.pure rfl) fun f hf => hP ▸ hI.drop hf

theorem blockTo_lowers (user : OpId) (dest : Destination) :
    Lowers I E D P (blockTo user next dest) fun _ => P := by
  refine .read getBindings_reads fun b => ?_
  split
  · exact .pure rfl
  · exact .reads (.lift _)
  · exact .read (.lift _) fun route => .editBind (hI.draft hP) fun _ =>
      .editBind (hI.emit hP (by simp)) fun _ => .editRead (result_reads _) fun _ =>
        .editBind (hI.emit hP (by simp)) fun _ => .editBind (hI.finish hP rfl) fun b =>
          .editBind (hI.splice (l := [_]) hP rfl) fun _ => .pure rfl

theorem finishFinal_lowers {x : OpId} (hx : x ∈ P.ends) (tryOp : OpId) (slot : Option ValueId) :
    Lowers I E D P (finishFinal tryOp slot next x) fun _ => P := by
  unfold finishFinal
  split
  · exact .edit (endBranch_turns hx)
  · refine .editBind hI.before fun _ => .editRead (result_reads _) fun _ =>
      .read getBindings_reads fun _ => .read (.lift _) fun route => ?_
    dsimp only
    split
    · exact .throwBind
    · exact .bind (.mapM fun c => .bind (blockTo_lowers hP tryOp c.2) fun _ => .pure rfl) fun _ =>
        .editBind (hI.endKind hx) fun _ => .edit hI.operands

theorem finishTry_lowers (bodyEntry : BlockId) (body catches final : List BlockId)
    (slot : Option ValueId) :
    Lowers I E D P (finishTry op bodyEntry body catches final next slot) fun _ => {} := by
  refine .editBind (terminatorsWhere_turns isTerminator_of_isYield body) fun _ =>
    .bind (forEnds_lowers fun x hx => ?_) fun _ =>
      .editBind (terminatorsWhere_turns isTerminator_of_isYield catches) fun _ =>
        .bind (forEnds_lowers fun x hx => ?_) fun _ =>
          .editBind (terminatorsWhere_turns isTerminator_of_isYield final) fun _ =>
            .bind (forEnds_lowers fun x hx => ?_) fun _ =>
              replaceWithBranch_lowers (by exact hP) _ _
  · exact .editBind (completeNormally_turns _ _) fun _ => .edit (endBranch_turns hx)
  · exact .editBind hI.before fun _ => .editBind (completeNormally_turns _ _) fun _ =>
      .edit (endBranch_turns hx)
  · exact finishFinal_lowers (by exact hP) hx op slot

end

theorem lowerTryRegions_lowers (types : TypeTable) (strategy : UnwindStrategy)
    {bodyRegion catchesRegion finalRegion : RegionId} (hP : P.site = .whole op .tryCatch)
    (hb : bodyRegion ∈ P.regions) (hc : catchesRegion ∈ P.regions) (hf : finalRegion ∈ P.regions) :
    Lowers I E D P (lowerTryRegions types strategy op bodyRegion catchesRegion finalRegion)
      fun _ => {} := by
  refine .bind (encloseTries_lowers _ _ _) fun _ => .bind (encloseTries_lowers _ _ _) fun _ =>
    .bind (encloseTries_lowers _ _ _) fun _ => ?_
  refine .editRead (hasOps_reads _) fun catchHasOps => .editRead (hasOps_reads _) fun finalHasOps =>
    .read getBindings_reads fun _ => .read getFunc_reads fun f => .read (.lift _) fun marks =>
    .editRead (catchType_reads _ _ _) fun type => .read (.lift _) fun bodyOps =>
    .read (.lift _) fun catchesOps => .read getBindings_reads fun b => ?_
  refine .bind (.settleAll fun _ _ => rfl) fun _ => .editBind (hI.cut hP rfl) fun next => ?_
  refine .of_imp ?_ fun s hs => ⟨hI.loosen hs.1 rfl, hs.2⟩
  refine .bind (cloneKept_lowers rfl (by exact hf) _) fun clone => ?_
  refine .editBind (inlineRegion_turns rfl (by exact hb)) fun bodyBlocks => ?_
  split
  · exact .throw
  refine .editBind (takeOrDiscard_turns rfl (by exact hc) _) fun catchesBlocks => ?_
  refine .editBind (takeOrDiscard_turns rfl (by exact hf) _) fun finalBlocks => ?_
  refine .editBind (padClone_turns rfl _ _) fun cleanup => ?_
  refine .bind (padCatches_lowers rfl _ _ _ _ _) fun landing => ?_
  refine .of_imp ?_ fun s hs =>
    ⟨hI.sort (l := catchesBlocks ++ (finalBlocks ++ (cleanup.toList ++ clone)))
    hs.1 ?_, hs.2⟩
  · refine .editBind (hI.splice rfl rfl) fun _ => .editBind (hI.splice rfl rfl) fun _ => ?_
    refine .editBind (placeClone_turns rfl (.refl _)) fun _ => .bind (.count _) fun _ => ?_
    refine .bind (unwindAll_lowers _ _) fun _ => .bind (unwindAll_lowers _ _) fun _ => ?_
    refine .bind (.settle fun _ => rfl) fun _ => .bind (routeEscapes_lowers rfl _ _ _)
      fun slot => ?_
    exact finishTry_lowers rfl _ _ _ _ slot
  · refine List.perm_iff_count.mpr fun b => ?_
    simp only [List.count_append, List.count_nil]
    omega

theorem lowerTry_lowers (types : TypeTable) (strategy : UnwindStrategy) :
    Lowers I E D { site := .whole op .tryCatch } (lowerTry types strategy op) fun _ => {} := by
  refine fun s hs => .editBind (getOp_keeps op) ?_
  rintro d _ ⟨rfl, hd⟩
  split
  · rename_i r₁ r₂ r₃ hr
    have h₁ := hI.region hs.1 rfl hd (r := r₁) (by simp [hr])
    have h₂ := hI.region h₁ rfl hd (r := r₂) (by simp [hr])
    have h₃ := hI.region h₂ rfl hd (r := r₃) (by simp [hr])
    exact lowerTryRegions_lowers types strategy rfl (by simp) (by simp) (by simp) _ ⟨h₃, hs.2⟩
  · exact .throw (hI.bears hs.1)

theorem lowerCatch_lowers (type : Option Ty) :
    Lowers I E D { site := .whole op (.catchMark type) } (lowerCatch op) fun _ => {} := by
  refine .read getBindings_reads fun _ => .read (.lift _) fun _ => .editRead (getOp_reads op)
    fun d => ?_
  split
  · exact .throw
  · exact let_go (.editBind (hI.runKind rfl rfl) fun _ => .edit hI.operands) fun _ => rfl

/-! ## Every construct -/

theorem lowerConstruct_lowers (types : TypeTable) (o : LowerOptions) (c : Construct) :
    Lowers I E D { site := .whole op c } (lowerConstruct types o op c) fun _ => {} := by
  cases c with
  | entry => exact lowerEntry_lowers
  | exit => exact lowerExit_lowers
  | ret => exact lowerReturn_lowers rfl rfl
  | retVal => exact .editBind (storeReturnValue_turns op) fun _ => lowerReturn_lowers rfl rfl
  | yieldVal => exact lowerYieldVal_lowers
  | branch => exact lowerBranch_lowers
  | whileLoop label => exact lowerWhile_lowers label
  | doWhile label => exact lowerDoWhile_lowers label
  | forLoop label => exact lowerFor_lowers label
  | switch label => exact lowerMerging_lowers rfl
  | labeled label => exact lowerMerging_lowers rfl
  | brk label | cont label =>
    exact .read getBindings_reads fun _ => .read (.lift _) fun _ => leave_lowers rfl rfl _
  | tryCatch => exact lowerTry_lowers types o.unwind
  | catchMark type => exact lowerCatch_lowers type
  | throw => exact lowerThrow_lowers
  | call callee => exact lowerCall_lowers rfl _ _
  | callIndirect => exact lowerCall_lowers rfl _ _
  | stateLabel => exact lowerStateLabel_lowers
  | capture => exact lowerCapture_lowers _
  | switchState _ | yield | condition | noCondition | merge => exact .throw

/-- A rewriting, given that its construct may be taken in hand. -/
theorem lowerOp_keeps (types : TypeTable) (o : LowerOptions) (hs : I {} s.func)
    (hD : s.bindings.pending = D) (hop : ∀ d c, s.func.op? op = some d → d.kind = .construct c →
      I { site := .whole op c } s.func) :
    Keeps (fun s => E s.func) (lowerOp types o op) s fun _ s' => Under I D {} s' := by
  have hkind : Keeps E (getKind op) s.func fun k f => f = s.func ∧
      ∃ d, s.func.op? op = some d ∧ d.kind = k := by
    change Keeps E (liftM (s.func.kind op) : Edit OpKind) s.func _
    unfold Func.kind Func.op existing
    cases hd : s.func.op? op with
    | none => exact .stop (by simp)
    | some d => exact .pure ⟨rfl, d, rfl, rfl⟩
  refine .editBind hkind ?_
  rintro k _ ⟨rfl, d, hd, rfl⟩
  refine .bind (m := fun _ s' => s'.func = s.func ∧ s'.bindings.pending = D) (.update ⟨rfl, hD⟩) ?_
  rintro _ s₁ ⟨hf₁, hD₁⟩
  split
  · rename_i c hc
    exact lowerConstruct_lowers types o c s₁ ⟨hf₁ ▸ hop d c hd hc, hD₁⟩
  · exact .pure ⟨hf₁ ▸ hs, hD₁⟩

/-! ## Dispatches -/

theorem finishDispatch_lowers (x : OpId) : Lowers I E D {} (finishDispatch x) fun _ => {} := by
  refine fun s hs => .editBind (getOp_keeps x) ?_
  rintro d _ ⟨rfl, hd⟩
  split
  · rename_i start hlive hkind
    have hx : I { ends := [x] } s.func :=
      hI.marks hs.1 (by simp [Func.kindIs, hd, hkind, OpKind.isTerminator, Construct.isTerminator])
    refine (let_go (P := { ends := [x] }) (Q := fun _ => { ends := [x] })
      (.read getBindings_reads fun b => ?_) fun _ => rfl) s ⟨hx, hs.2⟩
    dsimp only
    split
    · exact .edit (endBranch_turns (by simp))
    · exact .throw
    · exact .read (.lift _) fun _ => .editBind (hI.endKind (by simp)) fun _ => .edit hI.operands
  · exact .pure hs

theorem finishDispatches_keeps (hs : I {} s.func) :
    Keeps (fun s => E s.func) finishDispatches s fun _ s' => I {} s'.func := by
  have hloop : Lowers I E [] {} (s.bindings.pending.forM finishDispatch) fun _ => {} :=
    .forM fun x _ => finishDispatch_lowers x
  exact (hloop { s with bindings := s.bindings.clearPending } ⟨hs, rfl⟩).mono fun _ _ h => h.1

/-! ## The whole lowering -/

section

variable {f : Func} {s : LowerState}

/-- What is found in a list of ops is one of them. -/
theorem mem_of_scanOps {l ds : List OpId} (h : f.scanOps l = .ok (ds, some op)) : op ∈ l := by
  induction l generalizing ds with
  | nil => cases h
  | cons x l ih =>
    simp only [Func.scanOps, bind, Except.bind] at h
    split at h
    · cases h
    · split at h
      · split at h
        · cases h
        · rename_i p hp
          obtain ⟨ds', found⟩ := p
          cases h
          exact List.mem_cons_of_mem _ (ih hp)
      · split at h
        · cases h
          exact List.mem_cons_self
        · exact List.mem_cons_of_mem _ (ih h)

/-- What is found in a list of blocks is an op of one of them. -/
theorem mem_of_scanBlocks {l : List BlockId} {ds : List OpId} {start index : Nat}
    (h : f.scanBlocks start l = .ok (ds, some (index, op))) : ∃ b ∈ l, op ∈ f.opsIn b := by
  induction l generalizing ds start with
  | nil => cases h
  | cons b l ih =>
    simp only [Func.scanBlocks, bind, Except.bind] at h
    split at h
    · cases h
    rename_i bd hbd
    split at h
    · cases h
    rename_i p hp
    have hb : f.block? b = some bd := by
      unfold Func.block existing at hbd
      split at hbd
      · cases hbd
        assumption
      · cases hbd
    split at h
    · rename_i x hx
      cases h
      refine ⟨b, by simp, ?_⟩
      rw [Func.opsIn, hb]
      have hscan : f.scanOps bd.ops = .ok (p.1, some op) := by rw [hp, ← hx]
      exact mem_of_scanOps hscan
    · split at h
      · cases h
      · rename_i q hq
        obtain ⟨ds', found⟩ := q
        cases h
        obtain ⟨c, hc, hop⟩ := ih hq
        exact ⟨c, by simp [hc], hop⟩

theorem lift_ok {x : Except Stop α} {a : α} (h : (liftM x : Lower α) s = .ok a s) : x = .ok a := by
  cases x with
  | ok b =>
    cases h
    rfl
  | error e => cases h

/-- What is found is an op of the body. -/
theorem nextConstruct_keeps {E : LowerState → Prop} (hs : E s) (start : Nat) :
    Keeps E (nextConstruct start) s fun found s' => s'.func = s.func ∧ ∀ p, found = some p →
      ∃ b ∈ s.func.blocksIn s.func.body, p.2 ∈ s.func.opsIn b := by
  refine .read getFunc_reads hs fun f hf => ?_
  cases hf
  refine .read (.lift _) hs fun body hbody => .read (.lift _) hs fun p hp => ?_
  obtain ⟨ds, found⟩ := p
  refine .bind (m := fun _ s' => s'.func = s.func) (.update rfl) fun _ s' hs' => .pure ⟨hs', ?_⟩
  intro p hf
  obtain ⟨index, op⟩ := p
  have hbody := lift_ok hbody
  obtain ⟨b, hb, hop⟩ := mem_of_scanBlocks (hf ▸ lift_ok hp)
  refine ⟨b, ?_, hop⟩
  unfold Func.bodyBlocks Func.region existing at hbody
  split at hbody
  · rename_i rd hrd
    cases hbody
    rw [Func.blocksIn, hrd]
    exact List.mem_of_mem_drop hb
  · cases hbody

/-- A round, with a construct of the body. -/
theorem lowerOp_upholds {b : BlockId} (types : TypeTable) (o : LowerOptions) (hs : I {} s.func)
    (hb : b ∈ s.func.blocksIn s.func.body) (hop : op ∈ s.func.opsIn b) :
    Keeps (fun s => E s.func) (lowerOp types o op) s fun _ s' => I {} s'.func :=
  (lowerOp_keeps types o hs rfl fun _ _ hd hc => hI.enter hs hb hop hd hc).mono fun _ _ h => h.1

theorem flattenFrom_upholds (hs : I {} s.func) (types : TypeTable) (o : LowerOptions)
    (rounds start : Nat) :
    Keeps (fun s => E s.func) (flattenFrom types o rounds start) s fun _ s' => I {} s'.func := by
  have hE : E s.func := hI.bears hs
  induction rounds generalizing s start with
  | zero =>
    refine .bind (nextConstruct_keeps hE start) ?_
    rintro found s₁ ⟨h₁, -⟩
    split
    · exact .pure (h₁ ▸ hs)
    · exact .stop (by simp)
  | succ rounds ih =>
    refine .bind (nextConstruct_keeps hE start) ?_
    rintro found s₁ ⟨h₁, hfound⟩
    split
    · exact .pure (h₁ ▸ hs)
    · obtain ⟨b, hb, hop⟩ := hfound _ rfl
      rw [← h₁] at hs hb hop
      exact .bind (lowerOp_upholds types o hs hb hop) fun _ s₂ h₂ => ih h₂ _ (hI.bears h₂)

theorem flatten_upholds (hs : I {} s.func) (types : TypeTable) (o : LowerOptions) :
    Keeps (fun s => E s.func) (flatten types o) s fun _ s' => I {} s'.func :=
  .read getFunc_reads (hI.bears hs) fun _ _ => .bind (flattenFrom_upholds hs ..) fun _ _ h =>
    finishDispatches_keeps h

end

end Lower

end Unnest
