import Unnest.Proofs.Rewriting.Constructs
import Unnest.Proofs.Scan.Erasing
/-!
# Rewritings behind the search

No rewriting of a construct puts another before the block of the construct. What is split off from
that block comes after it, and the regions of the construct are laid out before what was split off;
all else is changed where it stands. A rewriting defers no dispatch either, so what has been put off
stays what it is.
-/

namespace Unnest

open Func Edit

/-- No construct is left before the `i`th block of the body but dispatches that have been put off,
the ops in `D`. -/
def LowerState.Swept (s : LowerState) (i : Nat) (D : List OpId) (out : BlockId → Prop) : Prop :=
  s.func.Swept i D out ∧ s.bindings.pending = D

variable {α : Type} {i : Nat} {D : List OpId} {out : BlockId → Prop} {f : Func} {P : Hand}

/-! ## Kinds -/

namespace Func

/-- The ops that are there keep their kinds. -/
def Kinds (f f' : Func) : Prop :=
  ∀ p x, f.kindIs p x = true → f'.kindIs p x = true

theorem Kinds.of_op? {f₀ f' : Func} (h : f₀.Kinds f)
    (hop : ∀ x d, f.op? x = some d → ∃ d', f'.op? x = some d' ∧ d'.kind = d.kind) :
    f₀.Kinds f' := by
  intro p x hx
  have hx := h p x hx
  unfold kindIs at hx ⊢
  cases hd : f.op? x with
  | none => simp [hd] at hx
  | some d =>
    obtain ⟨d', hd', hk⟩ := hop x d hd
    simpa [hd, hd', hk] using hx

end Func

namespace Edit

/-- No op changes its kind. -/
def KeepsKinds (x : Edit α) : Prop := ∀ f₀ : Func, Retains f₀.Kinds x

theorem modifyOp_kinds (x : OpId) (g : Op → Op) (hg : ∀ d, (g d).kind = d.kind) :
    KeepsKinds (modifyOp x g) :=
  fun _ _ h => .modifyOp fun _ _ => h.of_op? fun y d hd => by grind

theorem setOpParent_kinds (x : OpId) (b : Option BlockId) : KeepsKinds (setOpParent x b) :=
  modifyOp_kinds x (fun d => { d with parent := b }) fun _ => rfl

theorem modifyBlock_kinds (b : BlockId) (g : Block → Block) : KeepsKinds (modifyBlock b g) :=
  fun _ _ h => .modifyBlock fun _ _ => h

section

variable {kind : OpKind} {operands : List ValueId} {tys : List Ty}

theorem createOp_kinds (n : Nat) : KeepsKinds (createOp kind operands tys n) :=
  fun _ f h => .of_ok (a := ⟨f.ops.size⟩) (t := f.withOp kind operands tys n) rfl
    (h.of_op? fun _ d hd => ⟨d, by grind, rfl⟩)

theorem insertOpBefore_kinds (anchor x : OpId) : KeepsKinds (insertOpBefore anchor x) :=
  fun f₀ => .bind (.read (placeOfOp_reads anchor)) fun _ => .bind (setOpParent_kinds x _ f₀)
    fun _ => modifyBlock_kinds _ _ f₀

/-- A new op that takes a span and is then placed. -/
theorem emit_kinds {anchor : OpId} {place : OpId → Edit Unit}
    (hplace : ∀ op, KeepsKinds (place op)) : KeepsKinds (do
      let op ← createOp kind operands tys 0
      setSpan op (← getOp anchor).span
      place op
      return op) := by
  refine fun f₀ => .bind (createOp_kinds 0 f₀) fun op => .bind (.read (getOp_reads anchor))
    fun d => ?_
  refine .bind (modifyOp_kinds op (fun e => { e with span := d.span }) (fun _ => rfl) f₀)
    fun _ => ?_
  exact .bind (hplace op f₀) fun _ => .pure _

theorem appendOp_kinds (b : BlockId) (x : OpId) : KeepsKinds (appendOp b x) :=
  fun f₀ => .bind (setOpParent_kinds x _ f₀) fun _ => modifyBlock_kinds _ _ f₀

theorem emitAtEnd_kinds (b : BlockId) : KeepsKinds (emitAtEnd b kind operands tys) :=
  fun f₀ => .bind (createOp_kinds 0 f₀) fun x => .bind (appendOp_kinds b x f₀) fun _ => .pure _

end

theorem newBlock_kinds (tys : List Ty) : KeepsKinds (newBlock tys) :=
  fun _ f h => .of_ok (newBlock_eq f tys) h

theorem addBlockArg_kinds (b : BlockId) (ty : Ty) : KeepsKinds (addBlockArg b ty) := by
  refine fun f₀ => .bind (.read (getBlock_reads b)) fun _ => fun f h => .get ?_
  refine .bind (m := fun _ => f₀.Kinds) (.of_ok rfl h) fun _ f₁ h₁ => ?_
  exact .bind (modifyBlock_kinds _ _ f₀ f₁ h₁) fun _ _ h₂ => .pure h₂

theorem replaceAllUses_kinds (v w : ValueId) : KeepsKinds (replaceAllUses v w) := by
  refine fun f₀ f h => .update (h.of_op? fun x d hd => ?_)
  refine ⟨if d.live then { d with operands := d.operands.map fun u => if u = v then w else u }
    else d, ?_, by split <;> rfl⟩
  have hd : f.ops[x.index]? = some d := hd
  simp [op?, hd]

theorem spliceBefore_kinds (b : BlockId) (l : List BlockId) : KeepsKinds (spliceBefore b l) := by
  refine fun f₀ => .bind (.read (placeOfBlock_reads b)) fun p => .bind (fun f h => ?_)
    fun _ => fun f h => .modifyRegion fun _ _ => h
  refine claimBlocks_eq.mono ?_
  rintro _ _ ⟨rfl, -⟩
  exact h.of_op? fun x d hd => ⟨d, by simpa using hd, rfl⟩

end Edit

/-! ## The steps -/

/-- The block that what is split off comes before. -/
def Site.Leads : Site → BlockId → Prop
  | .split _ next, b | .last _ next, b => b = next
  | _, _ => False

/-- What the search needs of what is in hand. -/
structure Hand.Sweeps (i : Nat) (D : List OpId) (P : Hand) (f : Func) : Prop where
  swept : f.Swept i D P.site.Leads
  whole (op : OpId) (c : Construct) : P.site = .whole op c → c.isTerminator = false →
    f.kindIs (· == .construct c) op = true
  ends : ∀ x ∈ P.ends, f.kindIs OpKind.isTerminator x = true

theorem Hand.Sweeps.of_swept {runs : List OpId} (h : f.Swept i D out) :
    Hand.Sweeps i D { runs } f :=
  ⟨h.mono fun _ => False.elim, fun _ _ h => (by cases h), by simp⟩

/-- An edit that keeps kinds, in place. -/
theorem Turns.swept {x : Edit α} (hx : Retains (Func.Swept · i D P.site.Leads) x)
    (hk : KeepsKinds x) : Turns (Hand.Sweeps i D) (fun _ => True) P x fun _ => P := by
  intro f h
  refine ((hx f h.swept).and (hk f f fun _ _ => id)).mono ?_
  rintro a f' ⟨hf', hkinds⟩
  exact ⟨hf', fun op c hop hc => hkinds _ _ (h.whole op c hop hc),
    fun y hy => hkinds _ _ (h.ends y hy)⟩

/-- A block without ops is put at the end of the body, wherever that is. -/
theorem appendBlock_body_swept {b : BlockId} (h : f.Swept i D fun _ => False)
    (hb : ∃ d, f.block? b = some d ∧ d.ops = []) :
    Keeps (fun _ => True) (appendBlock f.body b) f fun _ f' => f'.Swept i D fun _ => False := by
  obtain ⟨bd, hbd, hops⟩ := hb
  refine .bind (m := fun _ f' => f' = f.atBlock b fun d => { d with parent := some f.body })
    (.modifyBlock fun _ _ => rfl) fun _ f₁ hf₁ => ?_
  have h₁ : f₁.Swept i D fun _ => False := hf₁ ▸ h.atBlock fun _ => rfl
  have hbd₁ : f₁.block? b = some { bd with parent := some f.body } := by
    rw [hf₁, block?_atBlock, if_pos rfl, hbd]
    rfl
  have hbody : f₁.body = f.body := by rw [hf₁, body_atBlock]
  refine .modifyRegion fun rd hrd => h₁.atRegion hrd rfl (fun _ c hc => ?_) fun _ c hc => ?_
  · obtain hc | hc := List.mem_append.mp hc
    · refine h₁.block ?_
      simpa [blocksIn, hbody, hrd] using hc
    · obtain rfl := List.mem_singleton.mp hc
      exact ⟨_, hbd₁⟩
  · rw [List.take_append, List.mem_append] at hc
    obtain hc | hc := hc
    · exact .inl hc
    · obtain rfl := List.mem_singleton.mp (List.mem_of_mem_take hc)
      exact .inr ⟨fun x hx => by simp [opsIn, hbd₁, hops] at hx, not_false⟩

/-- A construct that is no end of a block is not put off. -/
theorem isPending_of_whole {op : OpId} {c : Construct} (hc : c.isTerminator = false)
    (h : f.kindIs (· == .construct c) op = true) : f.kindIs OpKind.isPending op = true := by
  unfold kindIs at h ⊢
  cases hd : f.op? op with
  | none => simp [hd] at h
  | some d =>
    simp only [hd, Option.map_some, Option.getD_some, beq_iff_eq] at h
    simp only [Option.map_some, Option.getD_some, h]
    cases c <;> first | rfl | cases hc

instance : Upkeep (Hand.Sweeps i D) fun _ => True where
  bears _ := trivial
  enter h _ _ hd hc := by
    refine ⟨h.swept.mono fun _ => False.elim, fun x c' hx _ => ?_, by simp⟩
    cases hx
    simp [kindIs, hd, hc]
  drop h := ⟨h.swept, h.whole, by simp⟩
  marks h hl := ⟨h.swept, h.whole, hl⟩
  region h _ _ _ := ⟨h.swept, h.whole, h.ends⟩
  sort h _ := ⟨h.swept, h.whole, h.ends⟩
  loosen h hP := by
    have hswept := h.swept
    rw [hP] at hswept
    exact ⟨hswept, fun _ _ h => (by cases h), h.ends⟩
  operands := .swept (setOperands_retains _ _) (modifyOp_kinds _ _ fun _ => rfl)
  uses := .swept (replaceAllUses_retains _ _) (replaceAllUses_kinds _ _)
  arg := .swept (addBlockArg_retains _ _) (addBlockArg_kinds _ _)
  endKind := by
    intro P x t hx f h
    refine ((replaceKind_retains rfl f h.swept).and (.modifyOp (Q := fun _ f' => ∀ p y,
      f.kindIs p y = true → (y = x → p (.transfer t) = true) → f'.kindIs p y = true)
      fun d hd p y hy hxy => ?_)).mono ?_
    · unfold kindIs at hy ⊢
      cases hd : f.op? y <;> grind
    · rintro _ f' ⟨hf', hkinds⟩
      refine ⟨hf', fun op c hop hc => hkinds _ _ (h.whole op c hop hc) fun hxy => ?_,
        fun y hy => hkinds _ _ (h.ends y hy) fun _ => rfl⟩
      have hend := h.ends x hx
      have hwhole := hxy ▸ h.whole op c hop hc
      unfold kindIs at hend hwhole
      cases hd : f.op? x with
      | none => simp [hd] at hend
      | some d => simp_all [OpKind.isTerminator]
  runKind _ _ := fun f h => (replaceKind_retains rfl f h.swept).mono fun _ _ h' => .of_swept h'
  exitKind _ _ := fun f h => (replaceKind_retains rfl f h.swept).mono fun _ _ h' => .of_swept h'
  leaveKind _ _ := fun f h => (replaceKind_retains rfl f h.swept).mono fun _ _ h' =>
    ⟨h'.mono fun _ => False.elim, fun _ _ h => (by cases h), by simp⟩
  splitKind _ := fun f h => (replaceKind_retains rfl f h.swept).mono fun _ _ h' => .of_swept h'
  before := .swept (emitBefore_retains rfl) (emit_kinds (insertOpBefore_kinds _))
  after := fun f h => (emitAfter_retains rfl f h.swept).mono fun _ _ h' => .of_swept h'
  first := by
    intro P f op next b j vs tys h _ _
    refine ((createOp_spare h.swept rfl).and (createOp_kinds 0 f f fun _ _ => id)).mono ?_
    rintro x f₁ ⟨⟨h₁, hx⟩, hk₁⟩
    have hkinds : Keeps (fun _ => True) (insertOpAtStart b x) f₁ fun _ f' => f.Kinds f' :=
      .bind (setOpParent_kinds x _ f f₁ hk₁) fun _ f₂ hk₂ => modifyBlock_kinds _ _ f f₂ hk₂
    have hswept : Keeps (fun _ => True) (insertOpAtStart b x) f₁ fun _ f' =>
        f'.Swept i D P.site.Leads := by
      obtain ⟨d, hd, hparent, hlive, hkind⟩ := hx
      refine .bind (m := fun _ f' => f' = f₁.atOp x fun d => { d with parent := some b })
        (.modifyOp fun _ _ => rfl) fun _ f₂ hf₂ => ?_
      subst hf₂
      exact .modifyBlock fun bd hb => h₁.placeOp hd hparent hlive (.inl hkind) hb rfl (.refl _)
    refine (hswept.and hkinds).mono ?_
    rintro _ f₂ ⟨h₂, hk₂⟩
    exact ⟨h₂, fun op c hop hc => hk₂ _ _ (h.whole op c hop hc), fun y hy => hk₂ _ _ (h.ends y hy)⟩
  draft _ := .imp (.swept (newBlock_retains _) (newBlock_kinds _)) fun _ _ h =>
    ⟨h.swept, h.whole, h.ends⟩
  emit _ _ := .swept (emitAtEnd_retains rfl) (emitAtEnd_kinds _)
  finish _ _ := .imp (.swept (emitAtEnd_retains rfl) (emitAtEnd_kinds _)) fun _ _ h =>
    ⟨h.swept, h.whole, h.ends⟩
  append h := by
    refine (newBlock_swept h.swept []).mono ?_
    rintro b f ⟨hf, hb, -, -⟩
    exact (appendBlock_body_swept (hf.mono fun _ => False.elim) hb).mono fun _ _ h' =>
      ⟨h', fun _ _ h => (by cases h), by simp⟩
  emitOpen := .swept (emitAtEnd_retains rfl) (emitAtEnd_kinds _)
  finishOpen := fun f h => (emitAtEnd_retains rfl f h.swept).mono fun _ _ h' => .of_swept h'
  cut := by
    intro P op c hP hc f h
    have hpending := isPending_of_whole hc (h.whole op c hP hc)
    refine (splitAfter_swept (h.swept.mono fun _ => False.elim)).mono fun _ f' h' => ?_
    exact ⟨h'.mono fun _ hb => ⟨hb, hpending⟩, fun _ _ h => (by cases h), by simp⟩
  cutRest h _ _ _ := (splitAfter_swept (h.swept.mono fun _ => False.elim)).mono fun _ _ h' =>
    .of_swept h'
  noRest h _ _ _ := .of_swept h.swept 
  take hP _ := fun f h => (takeRegion_retains _ f h.swept).mono fun _ _ h' =>
    ⟨h', fun _ _ h => (by rw [hP] at h; cases h), by simp⟩
  clone hP _ := fun f h => (cloneRegion_retains _ f h.swept).mono fun _ _ h' =>
    ⟨h', fun _ _ h => (by rw [hP] at h; cases h), by simp⟩
  splice := by
    intro P op next l rest hP _
    have hsplice : Retains (Func.Swept · i D P.site.Leads) (spliceBefore next l) := by
      rw [hP]
      exact spliceBefore_retains next l
    exact .imp (.swept hsplice (spliceBefore_kinds _ _)) fun _ _ h => ⟨h.swept, h.whole, h.ends⟩
  discard hP _ := fun f h => ((discardBlocks_erases _).retains f h.swept).mono fun _ _ h' =>
    ⟨h', fun _ _ h => (by rw [hP] at h; cases h), by simp⟩
  erase _ _ := fun f h => ((eraseOp_erases _).retains f h.swept).mono fun _ _ h' => .of_swept h'
  close h _ _ := ((eraseOp_erases _).retains _ h.swept).mono fun _ f₁ h₁ =>
    (emitAtEnd_retains rfl f₁ h₁).mono fun _ _ h₂ =>
      .of_swept h₂

namespace Lower

theorem lowerOp_swept {s s' : LowerState} {op : OpId} {types : TypeTable} {o : LowerOptions}
    (hs : s.Swept i D fun _ => False) (h : lowerOp types o op s = .ok () s') :
    s'.Swept i D fun _ => False := by
  have hkeeps : Keeps _ (lowerOp types o op) s _ :=
    lowerOp_keeps (I := Hand.Sweeps i D) types o (.of_swept hs.1) hs.2 fun d c hd hc =>
      ⟨hs.1.mono fun _ => False.elim, fun x c' hx _ => ?_, by simp⟩
  · unfold Keeps at hkeeps
    rw [h] at hkeeps
    exact ⟨hkeeps.1.swept.mono fun _ => id, hkeeps.2⟩
  · cases hx
    simp [kindIs, hd, hc]

end Lower

end Unnest
