import Unnest.Proofs.Ownership.Lowering
import Unnest.Proofs.Scan.Search
import Unnest.Proofs.Statements
/-!
# Nothing is left

When the search ends, the body holds dispatches that have been put off and no other construct
(`Func.SweptOut`). Each of them is replaced, unless it is in the body no more. What tidies the
function then takes ops and blocks away or moves constants, so nothing comes back:
`Lower.lowerFunc_sweeps`.
-/

namespace Unnest

open Func

/-- No construct is left in the body but dispatches in `D`. -/
def Func.SweptOut (f : Func) (D : List OpId) : Prop := ∀ i, f.Swept i D fun _ => False

theorem Keeps.all {ι σ α : Type} {Q : ι → α → σ → Prop} {x : EStateM Stop σ α} {s : σ}
    (h : ∀ i, Keeps (fun _ => True) x s (Q i)) :
    Keeps (fun _ => True) x s fun a s' => ∀ i, Q i a s' := by
  unfold Keeps at h ⊢
  cases hx : x s with
  | ok a s' =>
    simp only [hx] at h
    exact h
  | error e s' => exact fun _ => trivial

/-- What a computation retains at every place. -/
theorem Retains.all {ι σ α : Type} {I : ι → σ → Prop} {x : EStateM Stop σ α}
    (h : ∀ i, Retains (I i) x) : Retains (fun s => ∀ i, I i s) x :=
  fun s hs => .all fun i => h i s (hs i)

variable {f : Func} {D : List OpId}

theorem Func.SweptOut.isStructured_eq_false (h : f.SweptOut []) {b : BlockId}
    (hb : b ∈ f.blocksIn f.body) {x : OpId} (hx : x ∈ f.opsIn b) {d : Op} (hd : f.op? x = some d) :
    d.kind.isStructured = false := by
  have hb : b ∈ (f.blocksIn f.body).take (f.blocksIn f.body).length := by rwa [List.take_length]
  by_contra hs
  obtain ⟨-, hmem⟩ := (h _).cleared hb x hx d hd (by simpa using hs)
  simp at hmem

/-! ## Dispatches -/

theorem OpKind.exists_of_isDispatch {k : OpKind} (hk : k.isDispatch = true) :
    ∃ start, k = .construct (.switchState start) := by
  unfold OpKind.isDispatch at hk
  split at hk
  · exact ⟨_, rfl⟩
  · simp at hk

/-- A dispatch that the body lists no more, or that is none any more, need not be remembered. -/
theorem Func.SweptOut.tail {x : OpId} (h : f.SweptOut (x :: D))
    (hx : ∀ b d, x ∈ f.opsIn b → f.op? x = some d → d.kind.isDispatch = false) :
    f.SweptOut D := by
  refine fun i => ⟨(h i).filed, (h i).body, (h i).block, fun {b} hb y hy d hd hs => ?_,
    fun hb => hb.elim⟩
  obtain ⟨hdispatch, hmem⟩ := (h i).cleared hb y hy d hd hs
  refine ⟨hdispatch, List.mem_of_ne_of_mem ?_ hmem⟩
  rintro rfl
  simp [hx b d hy hd] at hdispatch

namespace Edit

/-- A dispatch is replaced. -/
theorem replaceKind_sweptOut {x : OpId} {kind : OpKind} (hk : kind.isStructured = false)
    (h : f.SweptOut (x :: D)) :
    Keeps (fun _ => True) (replaceKind x kind) f fun _ f' => f'.SweptOut D := by
  refine .modifyOp fun _ _ => Func.SweptOut.tail (x := x)
    (fun i => (h i).atOp (fun _ => ⟨rfl, rfl⟩) fun _ hs => by simp [hk] at hs) fun b d _ hd => ?_
  have hkind : d.kind = kind := by grind
  by_contra hdispatch
  have := OpKind.isStructured_of_isDispatch (by simpa using hdispatch)
  simp [hkind, hk] at this

theorem setOperands_sweptOut (x : OpId) (operands : List ValueId) :
    Retains (Func.SweptOut · D) (setOperands x operands) :=
  .all fun _ => setOperands_retains x operands

end Edit

namespace Lower

open Edit

variable {s : LowerState}

theorem finishDispatch_sweptOut {x : OpId} (h : s.func.SweptOut (x :: D)) :
    Keeps (fun _ => True) (finishDispatch x) s fun _ s' => s'.func.SweptOut D := by
  refine .bind (m := fun d s' => s' = s ∧ s.func.op? x = some d)
    (.edit (I := fun _ => True) (getOp_keeps x) fun _ _ h' => ⟨by rw [h'.1], h'.2⟩) ?_
  rintro d s₁ ⟨rfl, hd⟩
  split
  · refine .read getBindings_reads trivial fun b _ => ?_
    split
    · exact .edit (.bind (replaceKind_sweptOut rfl h) fun _ f' h' => setOperands_sweptOut _ _ f' h')
        fun _ _ h => h
    · exact .throw trivial
    · exact .read (.lift _) trivial fun _ _ => .editBind (replaceKind_sweptOut rfl h) fun _ f' h' =>
        .edit (I := fun _ => True) (setOperands_sweptOut _ _ f' h') fun _ _ h => h
  · -- an op that a block lists is alive, so this is no dispatch
    rename_i hkind
    refine .pure (h.tail fun b d' hx hd' => ?_)
    obtain ⟨d'', hd'', -, hlive⟩ := (h 0).filed.op hx
    cases hd.symm.trans hd'
    cases hd.symm.trans hd''
    by_contra hdispatch
    obtain ⟨start, hk⟩ := OpKind.exists_of_isDispatch (by simpa using hdispatch)
    exact hkind start hlive hk

/-- All dispatches that have been put off are replaced. -/
theorem finishDispatches_sweptOut (h : s.func.SweptOut s.bindings.pending) :
    Keeps (fun _ => True) finishDispatches s fun _ s' => s'.func.SweptOut [] := by
  refine .bind (m := fun b s' => s' = s ∧ b = s.bindings) (.of_ok rfl ⟨rfl, rfl⟩) ?_
  rintro b s₁ ⟨rfl, rfl⟩
  refine .bind (m := fun _ s' => s'.func = s₁.func) (.update rfl) fun _ s₂ h₂ => ?_
  exact .forM (m := fun D (s' : LowerState) => s'.func.SweptOut D) (h₂ ▸ h) fun _ _ _ h =>
    finishDispatch_sweptOut h

end Lower

/-! ## Tidying -/

namespace Edit

/-- A block is taken out of the body, and the others close up. -/
theorem eraseBlock_sweptOut (b : BlockId) : Retains (Func.SweptOut · D) (eraseBlock b) := by
  have hkill : Retains (Func.SweptOut · D) (killBlock clearRegion b) :=
    .all fun _ => (killBlock_erases clearRegion_erases b).retains
  refine .bind (.read (getBlock_reads b)) fun bd => ?_
  split
  · intro f h
    refine .placeOfBlock trivial fun r place rd _ hr _ => ?_
    refine .bind (m := fun _ f' => f'.SweptOut D) (.modifyRegion fun _ _ i => ?_) fun _ f₁ h₁ =>
      .bind (m := fun _ f' => f'.SweptOut D)
        (.modifyBlock fun _ _ i => (h₁ i).atBlock (by simp)) fun _ f₂ h₂ => hkill f₂ h₂
    have hmem : ∀ c ∈ rd.blocks.eraseIdx place, c ∈ rd.blocks := fun c hc =>
      List.mem_of_mem_eraseIdx hc
    refine (h i).atRegion hr rfl (fun hbody c hc => (h i).block ?_) fun hbody c hc => .inr ⟨?_, id⟩
    · subst hbody
      simpa [blocksIn, hr] using hmem c hc
    · have hc := hmem c (List.mem_of_mem_take hc)
      refine (h rd.blocks.length).cleared ?_
      subst hbody
      simpa [blocksIn, hr] using hc
  · exact hkill

/-- The ops have the kinds they have in `f`. -/
def SameKinds (f f' : Func) : Prop := ∀ x, (f'.op? x).map (·.kind) = (f.op? x).map (·.kind)

/-- An op that is no construct is taken out of its block. -/
theorem detachOp_frees {f : Func} {x : OpId} (h : f.Filed)
    (hx : f.kindIs (fun k => !k.isStructured) x = true) :
    Keeps (fun _ => True) (detachOp x) f fun _ f' => f'.Unplaced x := by
  refine .placeOfOp trivial fun b place bd hb hbd hplace => ?_
  obtain ⟨d, hd, -, hlive⟩ := h.op (b := b) (x := x) (by
    simpa [opsIn, hbd] using List.mem_of_getElem? hplace)
  refine .bind (m := fun _ f' => f'.op? x = some d) (.modifyBlock fun _ _ => hd) fun _ f₁ h₁ => ?_
  refine .modifyOp fun _ _ => ⟨{ d with parent := none }, by grind, rfl, hlive, ?_⟩
  simpa [kindIs, hd] using hx

/-- Placing an op changes no kinds. -/
theorem insertOpBefore_sameKinds (f : Func) (anchor x : OpId) :
    Retains (SameKinds f) (insertOpBefore anchor x) := by
  intro f₁ h₁
  refine .placeOfOp trivial fun b place bd _ _ _ => ?_
  refine .bind (m := fun _ f' => SameKinds f f') (.modifyOp fun _ _ y => ?_) fun _ f₂ h₂ =>
    .modifyBlock fun _ _ => h₂
  rw [← h₁ y]
  exact (Sheds.atOp (g := fun d => { d with parent := some b }) fun _ => rfl).kind y

variable (f) in
/-- What is erased changes no kinds. -/
theorem Erases.sweptOut {α : Type} {x : Edit α} (h : Erases x) :
    Retains (fun f' => f'.SweptOut D ∧ SameKinds f f') x :=
  fun f₁ h₁ => (((Retains.all fun _ => h.retains) f₁ h₁.1).and (h f₁ (h₁.1 0).filed)).mono
    fun _ _ h' => ⟨h'.1, fun y => (h'.2.2.kind y).trans (h₁.2 y)⟩

variable (f) in
theorem replaceAllUses_sweptOut (old new : ValueId) :
    Retains (fun f' => f'.SweptOut D ∧ SameKinds f f') (replaceAllUses old new) := by
  refine .and (.all fun _ => replaceAllUses_retains old new) fun f₁ h₁ => ?_
  obtain ⟨f₂, hf₂, -, hop, -⟩ := replaceAllUses_gives old new f₁
  refine .of_ok hf₂ fun y => ?_
  rw [← h₁ y, hop, Option.map_map]
  congr 1
  funext d
  simp only [Function.comp_apply, Op.replaceUse]
  split <;> rfl

variable (f) in
/-- An op that is no construct is moved. -/
theorem moveOp_sweptOut {anchor x : OpId} (hx : f.kindIs (fun k => !k.isStructured) x = true) :
    Retains (fun f' => f'.SweptOut D ∧ SameKinds f f')
      (do detachOp x; insertOpBefore anchor x) := by
  intro f₁ h₁
  have hx₁ : f₁.kindIs (fun k => !k.isStructured) x = true := by
    have := h₁.2 x
    unfold kindIs at hx ⊢
    cases hd : f.op? x <;> cases hd₁ : f₁.op? x <;> simp_all
  have hfiled := (h₁.1 0).filed
  refine .bind ((detachOp_sheds hfiled x).and (detachOp_frees hfiled hx₁)) fun _ f₂ h₂ => ?_
  have hswept : f₂.SweptOut D := fun i => (h₁.1 i).sheds h₂.1.2.1 h₂.1.1
  have hkinds : SameKinds f f₂ := fun y => (h₂.1.2.1.kind y).trans (h₁.2 y)
  exact .and (.all fun i => insertOpBefore_swept (hswept i) h₂.2)
    (insertOpBefore_sameKinds f anchor x f₂ hkinds)

end Edit

namespace Tidy

open Edit

theorem pruneRounds_sweptOut (rounds : Nat) : Retains (Func.SweptOut · D) (pruneRounds rounds) := by
  induction rounds with
  | zero =>
    refine .bind (.read .get) fun f => .bind (.read (.lift _)) fun dead => ?_
    split
    · exact .pure _
    · exact .throw _
  | succ rounds ih =>
    refine .bind (.read .get) fun f => .bind (.read (.lift _)) fun dead => ?_
    split
    · exact .pure _
    · exact .bind (.forM fun b _ => eraseBlock_sweptOut b) fun _ => .bind ih fun _ => .pure _

theorem prune_sweptOut : Retains (Func.SweptOut · D) prune :=
  .bind (.read .get) fun _ => .bind (.read (.lift _)) fun _ => pruneRounds_sweptOut _

variable (f)

theorem mergeConstant_sweptOut (kept : Kept) (x : OpId) :
    Retains (fun f' => f'.SweptOut D ∧ SameKinds f f') (mergeConstant kept x) := by
  refine .bind (.read (getKind_reads x)) fun k => ?_
  split
  · refine .bind (.read (result_reads x)) fun v => .bind (.read (valueTy_reads v)) fun ty => ?_
    dsimp only
    split
    · exact .bind (replaceAllUses_sweptOut f _ _) fun _ =>
        .bind ((eraseOp_erases x).sweptOut f) fun _ => .pure _
    · exact .pure _
  · exact .pure _

theorem mergeLeading_sweptOut (kept : Kept) (l : List OpId) :
    Retains (fun f' => f'.SweptOut D ∧ SameKinds f f') (mergeLeading kept l) := by
  induction l generalizing kept with
  | nil => exact .pure _
  | cons x l ih =>
    exact .bind (mergeConstant_sweptOut f kept x) fun p => .bind (ih p.2) fun _ => .pure _

theorem gather_sweptOut {anchor : OpId} {l : List OpId}
    (hl : ∀ x ∈ l, f.kindIs (fun k => !k.isStructured) x = true) (kept : Kept) :
    Retains (fun f' => f'.SweptOut D ∧ SameKinds f f') (gather anchor kept l) := by
  induction l generalizing kept with
  | nil => exact .pure _
  | cons x l ih =>
    refine .bind (mergeConstant_sweptOut f kept x) fun p => ?_
    have hrest := ih (fun y hy => hl y (by simp [hy])) p.2
    dsimp only
    by_cases hp : (!p.1) = true
    · rw [if_pos hp, ← bind_assoc]
      exact .bind (moveOp_sweptOut f (hl x (by simp))) fun _ => hrest
    · rw [if_neg hp]
      exact hrest

theorem kindIs_of_constantAt {x : OpId} (hx : f.constantAt x = true) :
    f.kindIs (fun k => !k.isStructured) x = true := by
  unfold Func.constantAt Func.kindIs at *
  cases hd : f.op? x with
  | none => simp [hd] at hx
  | some d =>
    have hk : d.kind.isConstant = true := by simpa [hd] using hx
    cases hkind : d.kind <;> simp_all [OpKind.isConstant, OpKind.isStructured]

theorem gatherConstants_sweptOut : Retains (Func.SweptOut · D) gatherConstants := by
  refine .bind (.read entryBlock_reads) fun entry => ?_
  split
  · exact .pure _
  refine .bind (.read .get) fun f₀ => .bind (.read (getBlock_reads _)) fun bd =>
    .bind (.read (.lift _)) fun leading => ?_
  refine .bind (fun f₁ h₁ => (mergeLeading_sweptOut f₁ _ leading f₁ ⟨h₁, fun _ => rfl⟩).mono
    fun _ _ h => h.1) fun p => .bind (.read (getBlock_reads _)) fun bd' => ?_
  split
  · exact .pure _
  intro f₁ h₁
  refine .bind (m := fun f' s => f' = f₁ ∧ s = f₁) (.of_ok rfl ⟨rfl, rfl⟩) ?_
  rintro _ _ ⟨rfl, rfl⟩
  rw [Func.otherConstants_eq (h₁ 0).body (fun _ => (h₁ 0).block) fun x hx => by
    obtain ⟨b, -, hx⟩ := Func.mem_bodyOps.mp hx
    obtain ⟨d, hd, -⟩ := (h₁ 0).filed.op hx
    exact ⟨d, hd⟩]
  refine .bind (m := fun others f' => (∀ x ∈ others, f'.constantAt x = true) ∧ f'.SweptOut D)
    (.of_ok rfl ⟨fun x hx => (List.mem_filter.mp hx).2, h₁⟩) fun others f₂ h₂ => ?_
  refine .bind ((gather_sweptOut f₂ (fun x hx => kindIs_of_constantAt f₂ (h₂.1 x hx)) _ f₂
    ⟨h₂.2, fun _ => rfl⟩).mono fun _ _ h => h.1) fun _ _ h => .pure h

end Tidy

namespace Lower

theorem finish_sweptOut (o : LowerOptions) (stats : LowerStats) :
    Retains (Func.SweptOut · D) (finish o stats) := by
  have check (stats : LowerStats) : Retains (Func.SweptOut · D) (do
      if o.verify then (← get).checkLowered
      return stats : Edit LowerStats) := by
    dsimp only
    split
    · exact .bind (.read .get) fun _ => .bind (.read (.lift _)) fun _ => .pure _
    · exact .pure _
  unfold finish
  dsimp only
  split
  · refine .bind Tidy.prune_sweptOut fun _ => ?_
    split
    · exact .bind Tidy.gatherConstants_sweptOut fun _ => check _
    · exact check _
  · exact check _

variable {types : TypeTable} {o : LowerOptions}

theorem start_swept (hf : f.Owned) (hbody : ∃ d, f.region? f.body = some d) :
    (LowerState.start f).Swept 0 [] fun _ => False :=
  ⟨⟨hf.filed, hbody, hf.exists_block, by simp, False.elim⟩, rfl⟩

/-- Without a body there is nothing to search. -/
theorem exists_body_of_nextConstruct {i : Nat} {s s' : LowerState} {found : Option (Nat × OpId)}
    (h : nextConstruct i s = .ok found s') : ∃ d, s.func.region? s.func.body = some d := by
  obtain ⟨f, s₁, hget, h⟩ := bind_eq_ok h
  cases hget
  obtain ⟨l, s₂, hblocks, -⟩ := bind_eq_ok h
  cases hd : s.func.region? s.func.body with
  | some d => exact ⟨d, rfl⟩
  | none =>
    have hnone : s.func.bodyBlocks = .error .outOfRange := by
      unfold Func.bodyBlocks Func.region
      rw [hd]
      rfl
    rw [hnone] at hblocks
    cases hblocks

theorem exists_body_of_flattenFrom {rounds i : Nat} {s s' : LowerState}
    (h : flattenFrom types o rounds i s = .ok () s') :
    ∃ d, s.func.region? s.func.body = some d := by
  cases rounds <;> obtain ⟨found, s₁, hnext, -⟩ := bind_eq_ok h <;>
    exact exists_body_of_nextConstruct hnext

/-- At every round of a lowering, the search from where the last construct was found finds the
first construct of the whole body that is no dispatch, and every dispatch before it has been put
off. So no construct is left in the body of a function that has been lowered. -/
theorem lowerFunc_sweeps (types : TypeTable) (o : LowerOptions) (hf : f.Owned) :
    ((∃ d, f.region? f.body = some d) → ∀ i s, Rounds types o (0, .start f) (i, s) →
      ∃ found s', nextConstruct i s = .ok found s' ∧ s'.func = s.func ∧
        found.map (·.2) = s.func.bodyOps.find? (s.func.kindIs OpKind.isPending) ∧
        ∀ x ∈ s.func.dispatchesBefore s.func.bodyOps, x ∈ s'.bindings.pending) ∧
    ∀ stats f', lowerFunc types o f = .ok stats f' → ∀ b ∈ f'.blocksIn f'.body,
      ∀ x ∈ f'.opsIn b, ∀ d, f'.op? x = some d → d.kind.isStructured = false := by
  refine ⟨fun hbody i s hrounds => ?_, fun stats f' h b hb x hx d hd => ?_⟩
  · obtain ⟨found, s', hnext, hfunc, hfound, hdispatches, -⟩ :=
      (hrounds.swept (start_swept hf hbody)).nextConstruct
    exact ⟨found, s', hnext, hfunc, hfound, hdispatches⟩
  · obtain ⟨s, hflatten, hfinish⟩ := exists_flatten h
    obtain ⟨f₀, s₀, hget, hflatten⟩ := bind_eq_ok hflatten
    cases hget
    obtain ⟨⟨⟩, s₁, hflatten, hdispatches⟩ := bind_eq_ok hflatten
    have hbody := exists_body_of_flattenFrom hflatten
    have hswept : s₁.func.SweptOut s₁.bindings.pending :=
      flattenFrom_swept (start_swept hf hbody) hflatten
    have hs : s.func.SweptOut [] := (finishDispatches_sweptOut hswept).ok hdispatches
    exact ((finish_sweptOut o s.stats).ok hs hfinish).isStructured_eq_false hb hx hd

end Lower

/-- A dispatch before a try whose finally can be resumed in. -/
def Source.resumedClose : List Source.Stmt :=
  [.entry none, .constant (.int 0) .i32 (some "state"), .newBlock (some "start"),
    .switchState (.named "state") (.named "start"), .cursor (.named "start"),
    .tryCatch [.call "read" [] [] []] [] [.stateLabel, .call "close" [] [] []], .exit]

/-- The dispatch is put off by the search that finds the try, and both are gone in the end. -/
theorem Lower.lowerFunc_sweeps_resumedClose : ∃ f, f.Owned ∧ (∃ d, f.region? f.body = some d) ∧
    f.bodyOps.any (f.kindIs OpKind.isDispatch) = true ∧
    (∃ found s, nextConstruct 0 (.start f) = .ok found s ∧
      found.map (·.2) = f.bodyOps.find? (f.kindIs OpKind.isPending) ∧
      ∀ x ∈ f.dispatchesBefore f.bodyOps, x ∈ s.bindings.pending) ∧
    ∃ stats f', lowerFunc {} .bare f = .ok stats f' ∧ ∀ b ∈ f'.blocksIn f'.body,
      ∀ x ∈ f'.opsIn b, ∀ d, f'.op? x = some d → d.kind.isStructured = false := by
  obtain ⟨f, hf, hbody, hone, stats, f', hlower⟩ : ∃ f : Func, f.Owned ∧
      (∃ d, f.region? f.body = some d) ∧ f.bodyOps.any (f.kindIs OpKind.isDispatch) = true ∧
      ∃ stats f', lowerFunc {} .bare f = .ok stats f' := by
    have hbuilt := Source.building_built "f" ⟨[], .void⟩ Source.resumedClose (by decide +kernel)
    obtain ⟨stats, hlower⟩ := ok_left (x := lowerFunc {} .bare)
      (s := Source.built "f" ⟨[], .void⟩ Source.resumedClose) (by decide +kernel)
    refine ⟨Source.built "f" ⟨[], .void⟩ Source.resumedClose, hbuilt.sound.owned, ?_,
      by decide +kernel, stats, _, hlower⟩
    exact Option.isSome_iff_exists.mp (by decide +kernel)
  obtain ⟨hscan, hdone⟩ := lowerFunc_sweeps {} .bare hf
  obtain ⟨found, s, hnext, -, hfound, hdispatches⟩ := hscan hbody 0 _ .refl
  exact ⟨f, hf, hbody, hone, ⟨found, s, hnext, hfound, hdispatches⟩, stats, f', hlower,
    hdone stats f' hlower⟩

end Unnest
