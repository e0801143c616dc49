import Unnest.Proofs.Keeps
import Unnest.Proofs.Ownership.Basic
/-!
# Edits keep ownership

Each edit that places nodes keeps ownership as long as it places live nodes without an owner into
live owners. An edit next to a node that has an owner needs nothing more: an owner that lists
something is alive.

What the later edits of a lowering rely on is what an edit leaves in place: `Func.Steady` says that
the blocks of the body stay there, that the ops in them stay at the top level, and that live blocks
without an owner stay so unless they are placed.
-/

namespace Unnest

namespace Func

/-- A live block without an owner. -/
@[grind] def Free (f : Func) (b : BlockId) : Prop :=
  ∃ d, f.block? b = some d ∧ d.parent = none ∧ d.live = true

/-- A live op without an owner. -/
@[grind] def Loose (f : Func) (op : OpId) : Prop :=
  ∃ d, f.op? op = some d ∧ d.parent = none ∧ d.live = true

/-- The block is in the table and live. -/
@[grind] def LiveBlock (f : Func) (b : BlockId) : Prop := ∃ d, f.block? b = some d ∧ d.live = true

/-- An op in a block of the body. -/
@[grind] def AtTop (f : Func) (op : OpId) : Prop :=
  ∃ b, f.ownerOfOp op = some b ∧ f.ownerOfBlock b = some f.body

/-- What an edit leaves in place that takes the blocks in `placed` and may erase the ops in
`erased`. -/
structure Steady (f f' : Func) (placed : BlockId → Prop) (erased : OpId → Prop) : Prop where
  body : f'.body = f.body
  top (b : BlockId) : f.ownerOfBlock b = some f.body → f'.ownerOfBlock b = some f.body
  atTop (op : OpId) : f.AtTop op → ¬ erased op → f'.AtTop op
  free (b : BlockId) : f.Free b → ¬ placed b → f'.Free b

/-- An edit that takes and erases nothing. -/
abbrev Still (f f' : Func) : Prop := f.Steady f' (fun _ => False) (fun _ => False)

namespace Steady

variable {f f₁ f₂ : Func} {p : BlockId → Prop} {q : OpId → Prop}

theorem refl (f : Func) : f.Still f := ⟨rfl, fun _ h => h, fun _ h _ => h, fun _ h _ => h⟩

theorem trans (h₁ : f.Still f₁) (h₂ : f₁.Steady f₂ p q) : f.Steady f₂ p q where
  body := h₂.body.trans h₁.body
  top b hb := by rw [← h₁.body]; exact h₂.top b (by rw [h₁.body]; exact h₁.top b hb)
  atTop op ho he := h₂.atTop op (h₁.atTop op ho (by simp)) he
  free b hb hp := h₂.free b (h₁.free b hb (by simp)) hp

theorem trans_still (h₁ : f.Steady f₁ p q) (h₂ : f₁.Still f₂) : f.Steady f₂ p q where
  body := h₂.body.trans h₁.body
  top b hb := by rw [← h₁.body]; exact h₂.top b (by rw [h₁.body]; exact h₁.top b hb)
  atTop op ho he := h₂.atTop op (h₁.atTop op ho he) (by simp)
  free b hb hp := h₂.free b (h₁.free b hb hp) (by simp)

end Steady

end Func

open Func

variable {f : Func}

namespace Keeps

variable {I : Func → Prop} {Q : Unit → Func → Prop}

theorem modifyOp {id : OpId} {g : Op → Op}
    (h : ∀ d, f.op? id = some d → Q () (f.atOp id g)) :
    Keeps I (Edit.modifyOp id g) f Q := by
  unfold Keeps Edit.modifyOp
  by_cases hi : id.index < f.ops.size
  · simp only [hi, if_true]
    exact h _ (Array.getElem?_eq_getElem hi)
  · simp [hi]

theorem modifyBlock {id : BlockId} {g : Block → Block}
    (h : ∀ d, f.block? id = some d → Q () (f.atBlock id g)) :
    Keeps I (Edit.modifyBlock id g) f Q := by
  unfold Keeps Edit.modifyBlock
  by_cases hi : id.index < f.blocks.size
  · simp only [hi, if_true]
    exact h _ (Array.getElem?_eq_getElem hi)
  · simp [hi]

theorem modifyRegion {id : RegionId} {g : Region → Region}
    (h : ∀ d, f.region? id = some d → Q () (f.atRegion id g)) :
    Keeps I (Edit.modifyRegion id g) f Q := by
  unfold Keeps Edit.modifyRegion
  by_cases hi : id.index < f.regions.size
  · simp only [hi, if_true]
    exact h _ (Array.getElem?_eq_getElem hi)
  · simp [hi]

/-- Every listed block is given the same owner. -/
theorem setBlockParents {l : List BlockId} {p : Option RegionId} (h : Q () (f.setOwners l p)) :
    Keeps I (l.forM fun b => Edit.setBlockParent b p) f Q := by
  induction l generalizing f with
  | nil => exact pure h
  | cons b l ih =>
    refine bind (m := fun _ f' => f' = f.atBlock b fun d => { d with parent := p })
      (modifyBlock fun _ _ => rfl) fun _ f₁ hf => ?_
    subst hf
    exact ih h

theorem setOpParents {l : List OpId} {p : Option BlockId} (h : Q () (f.setOpOwners l p)) :
    Keeps I (l.forM fun op => Edit.setOpParent op p) f Q := by
  induction l generalizing f with
  | nil => exact pure h
  | cons op l ih =>
    refine bind (m := fun _ f' => f' = f.atOp op fun d => { d with parent := p })
      (modifyOp fun _ _ => rfl) fun _ f₁ hf => ?_
    subst hf
    exact ih h

end Keeps

theorem Edit.getOp_keeps {I : Func → Prop} (op : OpId) :
    Keeps I (Edit.getOp op) f fun d f' => f' = f ∧ f.op? op = some d := by
  change Keeps I (liftM (f.op op) : Edit Op) f _
  unfold Func.op existing
  split
  · rename_i d hd
    exact .pure ⟨rfl, hd⟩
  · exact .stop (by simp)

namespace Keeps

variable {α : Type} {I : Func → Prop} {Q : α → Func → Prop}

theorem getOp {op : OpId} {k : Op → Edit α} (hk : ∀ d, f.op? op = some d → Keeps I (k d) f Q) :
    Keeps I (Edit.getOp op >>= k) f Q := by
  refine bind (Edit.getOp_keeps op) ?_
  rintro d _ ⟨rfl, hd⟩
  exact hk d hd

theorem getBlock {b : BlockId} {k : Block → Edit α}
    (hk : ∀ d, f.block? b = some d → Keeps I (k d) f Q) :
    Keeps I (Edit.getBlock b >>= k) f Q := by
  refine bind (m := fun d f' => f' = f ∧ f.block? b = some d) ?_ ?_
  · change Keeps I (liftM (f.block b) : Edit Block) f _
    unfold Func.block existing
    split
    · rename_i d hd
      exact pure ⟨rfl, hd⟩
    · exact stop (by simp)
  · rintro d _ ⟨rfl, hd⟩
    exact hk d hd

theorem getRegion {r : RegionId} {k : Region → Edit α}
    (hk : ∀ d, f.region? r = some d → Keeps I (k d) f Q) :
    Keeps I (Edit.getRegion r >>= k) f Q := by
  refine bind (m := fun d f' => f' = f ∧ f.region? r = some d) ?_ ?_
  · change Keeps I (liftM (f.region r) : Edit Region) f _
    unfold Func.region existing
    split
    · rename_i d hd
      exact pure ⟨rfl, hd⟩
    · exact stop (by simp)
  · rintro d _ ⟨rfl, hd⟩
    exact hk d hd

/-- An edit at the place of an op in its block. -/
theorem placeOfOp {op : OpId} {k : BlockId × Nat → Edit α} (hs : I f)
    (hk : ∀ b place bd, f.ownerOfOp op = some b → f.block? b = some bd →
      bd.ops[place]? = some op → Keeps I (k (b, place)) f Q) :
    Keeps I (Edit.placeOfOp op >>= k) f Q := by
  refine bind (m := fun p f' => f' = f ∧ ∃ bd, f.ownerOfOp op = some p.1 ∧
    f.block? p.1 = some bd ∧ bd.ops[p.2]? = some op) ?_ ?_
  rotate_left
  · rintro p _ ⟨rfl, bd, ho, hb, hp⟩
    exact hk p.1 p.2 bd ho hb hp
  refine getOp fun d hd => ?_
  split
  · exact throw hs
  · rename_i b hp
    refine getBlock fun bd hbd => ?_
    split
    · exact throw hs
    · rename_i place hplace
      refine pure ⟨rfl, bd, ?_, hbd, ?_⟩
      · simp [ownerOfOp, hd, hp]
      · obtain ⟨hi, hx, -⟩ := List.findIdx?_eq_some_iff_getElem.mp hplace
        simpa [hi] using hx

/-- An edit at the place of a block in its region. -/
theorem placeOfBlock {b : BlockId} {k : RegionId × Nat → Edit α} (hs : I f)
    (hk : ∀ r place rd, f.ownerOfBlock b = some r → f.region? r = some rd →
      rd.blocks[place]? = some b → Keeps I (k (r, place)) f Q) :
    Keeps I (Edit.placeOfBlock b >>= k) f Q := by
  refine bind (m := fun p f' => f' = f ∧ ∃ rd, f.ownerOfBlock b = some p.1 ∧
    f.region? p.1 = some rd ∧ rd.blocks[p.2]? = some b) ?_ ?_
  rotate_left
  · rintro p _ ⟨rfl, rd, ho, hr, hp⟩
    exact hk p.1 p.2 rd ho hr hp
  refine getBlock fun d hd => ?_
  split
  · exact throw hs
  · rename_i r hp
    refine getRegion fun rd hrd => ?_
    split
    · exact throw hs
    · rename_i place hplace
      refine pure ⟨rfl, rd, ?_, hrd, ?_⟩
      · simp [ownerOfBlock, hd, hp]
      · obtain ⟨hi, hx, -⟩ := List.findIdx?_eq_some_iff_getElem.mp hplace
        simpa [hi] using hx

end Keeps

namespace Edit

/-! ## Ops -/

variable {op : OpId}

/-- Changing an op apart from what it owns and what owns it. -/
theorem modifyOp_keeps {g : Op → Op} (h : f.Sound) (hg : ∀ d, Tied.tie (g d) = Tied.tie d) :
    Keeps Sound (modifyOp op g) f fun _ f' => f'.Sound ∧ f.Still f' := by
  refine .modifyOp fun d hd => ⟨h.inertOp hg, rfl, fun b hb => hb, fun x hx _ => ?_,
    fun b hb _ => hb⟩
  have hp : (g d).parent = d.parent := congrArg (·.2.2.1) (hg d)
  grind

theorem replaceKind_keeps (h : f.Sound) (op : OpId) (kind : OpKind) :
    Keeps Sound (replaceKind op kind) f fun _ f' => f'.Sound ∧ f.Still f' :=
  modifyOp_keeps h fun _ => rfl

theorem setOperands_keeps (h : f.Sound) (op : OpId) (operands : List ValueId) :
    Keeps Sound (setOperands op operands) f fun _ f' => f'.Sound ∧ f.Still f' :=
  modifyOp_keeps h fun _ => rfl

theorem setSpan_keeps (h : f.Sound) (op : OpId) (span : Option Span) :
    Keeps Sound (setSpan op span) f fun _ f' => f'.Sound ∧ f.Still f' :=
  modifyOp_keeps h fun _ => rfl

theorem replaceAllUses_keeps (h : f.Sound) (old new : ValueId) :
    Keeps Sound (replaceAllUses old new) f fun _ f' => f'.Sound ∧ f.Still f' := by
  let g : Op → Op := fun d =>
    if d.live then { d with operands := d.operands.map fun v => if v = old then new else v } else d
  let f' : Func := { f with ops := f.ops.map g }
  have hop : ∀ x, f'.op? x = (f.op? x).map g := fun x => by simp [op?, f']
  have hg : ∀ d, Tied.tie (g d) = Tied.tie d := fun d => by
    simp only [g]
    split <;> rfl
  have howner : ∀ x, f'.ownerOfOp x = f.ownerOfOp x := fun x => by
    rw [ownerOfOp, hop, ownerOfOp]
    cases f.op? x with
    | none => rfl
    | some d => exact congrArg (·.2.2.1) (hg d)
  have hs : f'.Sound := by
    refine h.congr (fun x => ?_) rfl rfl rfl rfl
    rw [hop, Option.map_map, funext (f := Tied.tie ∘ g) hg]
  refine .of_ok (a := ()) (t := f') rfl ⟨hs, rfl, fun b hb => hb, ?_, fun b hb _ => hb⟩
  rintro x ⟨b, hx, hb⟩ -
  exact ⟨b, (howner x).trans hx, hb⟩

variable {b : BlockId} {bd : Block}

/-- Placing a live op without an owner in a block. -/
theorem placeOp_still {l : List OpId} {g : Block → Block} (ho : f.Loose op)
    (hb : f.block? b = some bd) (hg : g bd = { bd with ops := l }) :
    f.Still ((f.atOp op fun d => { d with parent := some b }).atBlock b g) where
  body := rfl
  top c := by grind
  atTop x := by grind
  free c := by grind

theorem createOp_keeps (h : f.Sound) (kind : OpKind) (operands : List ValueId) (tys : List Ty)
    (count : Nat) :
    Keeps Sound (createOp kind operands tys count) f fun op f' =>
      f'.Sound ∧ f.Still f' ∧ f'.Loose op ∧ f'.block? = f.block? := by
  have hnew : f.op? ⟨f.ops.size⟩ = none := by simp [op?]
  refine .of_ok (a := ⟨f.ops.size⟩) (t := f.withOp kind operands tys count) rfl
    ⟨h.withOp .., ⟨rfl, fun b hb => hb, fun x => by grind, fun b hb _ => hb⟩, ?_, rfl⟩
  exact ⟨_, by rw [op?_withOp, if_pos rfl], rfl, rfl⟩

/-- A block that lists an op is alive. -/
theorem liveBlock_of_mem (h : f.Sound) (hb : f.block? b = some bd) (ho : op ∈ bd.ops) :
    bd.live = true := by
  have := h.deadBlock b bd hb
  grind

/-- Putting a live op without an owner at a place of a live block. -/
theorem placeOp_keeps {place : Nat} {g : Block → Block} (h : f.Sound) (hb : f.block? b = some bd)
    (hl : bd.live = true) (ho : f.Loose op) (hi : place ≤ bd.ops.length)
    (hg : g bd = { bd with ops := bd.ops.insertIdx place op }) :
    Keeps Sound (do setOpParent op (some b); modifyBlock b g) f fun _ f' =>
      f'.Sound ∧ f.Still f' := by
  refine .bind (m := fun _ f' => f' = f.atOp op fun d => { d with parent := some b })
    (.modifyOp fun _ _ => rfl) fun _ f₁ hf₁ => ?_
  subst hf₁
  refine .modifyBlock fun _ _ => ⟨?_, placeOp_still ho hb hg⟩
  have hperm := List.perm_insertIdx op bd.ops hi
  obtain ⟨d, hd, hp, hl'⟩ := ho
  refine h.placeOp hd hp hl' hb hl hg (fun x => ?_) ?_
  · rw [hperm.mem_iff, List.mem_cons]
  · have := h.opsOnce b
    have := h.ops b op
    rw [hperm.nodup_iff]
    grind

theorem appendOp_keeps (h : f.Sound) (hb : f.LiveBlock b) (ho : f.Loose op) :
    Keeps Sound (appendOp b op) f fun _ f' => f'.Sound ∧ f.Still f' := by
  obtain ⟨bd, hbd, hbl⟩ := hb
  refine placeOp_keeps h hbd hbl ho (le_refl _) ?_
  rw [List.insertIdx_length_self]

theorem insertOpAtStart_keeps (h : f.Sound) (hb : f.LiveBlock b) (ho : f.Loose op) :
    Keeps Sound (insertOpAtStart b op) f fun _ f' => f'.Sound ∧ f.Still f' := by
  obtain ⟨bd, hbd, hbl⟩ := hb
  exact placeOp_keeps h hbd hbl ho (Nat.zero_le _) (by simp)

variable {anchor : OpId}

theorem insertOpBefore_keeps (h : f.Sound) (ho : f.Loose op) :
    Keeps Sound (insertOpBefore anchor op) f fun _ f' => f'.Sound ∧ f.Still f' := by
  refine .placeOfOp h fun b place bd _ hbd hp => ?_
  have hi := (List.getElem?_eq_some_iff.mp hp).1
  exact placeOp_keeps h hbd (liveBlock_of_mem h hbd (List.mem_of_getElem? hp)) ho hi.le rfl

theorem insertOpAfter_keeps (h : f.Sound) (ho : f.Loose op) :
    Keeps Sound (insertOpAfter anchor op) f fun _ f' => f'.Sound ∧ f.Still f' := by
  refine .placeOfOp h fun b place bd _ hbd hp => ?_
  have hi := (List.getElem?_eq_some_iff.mp hp).1
  exact placeOp_keeps h hbd (liveBlock_of_mem h hbd (List.mem_of_getElem? hp)) ho hi rfl

/-- A new op that takes a span and is then placed. -/
theorem emit_keeps {kind : OpKind} {operands : List ValueId} {tys : List Ty}
    {place : OpId → Edit Unit} (h : f.Sound) (hp : ∀ f' op, f'.Sound → f'.Loose op →
      Keeps Sound (place op) f' fun _ f'' => f''.Sound ∧ f'.Still f'') : Keeps Sound (do
      let op ← createOp kind operands tys 0
      setSpan op (← getOp anchor).span
      place op
      return op) f fun _ f' => f'.Sound ∧ f.Still f' := by
  refine .bind (createOp_keeps h ..) ?_
  rintro op f₁ ⟨h₁, s₁, l₁, _⟩
  refine .getOp fun d _ => ?_
  refine .bind (m := fun _ f' => f'.Sound ∧ f₁.Still f' ∧ f'.Loose op) (.modifyOp fun e he => ?_) ?_
  · refine ⟨h₁.inertOp fun _ => rfl, ⟨rfl, fun b hb => hb, fun x => by grind, fun b hb _ => hb⟩, ?_⟩
    grind
  · rintro _ f₂ ⟨h₂, s₂, l₂⟩
    refine .bind (hp f₂ op h₂ l₂) ?_
    rintro _ f₃ ⟨h₃, s₃⟩
    exact .pure ⟨h₃, s₁.trans (s₂.trans s₃)⟩

theorem emitBefore_keeps (h : f.Sound) (anchor : OpId) (kind : OpKind) (operands : List ValueId)
    (tys : List Ty) :
    Keeps Sound (emitBefore anchor kind operands tys) f fun _ f' => f'.Sound ∧ f.Still f' :=
  emit_keeps h fun _ _ h' l' => insertOpBefore_keeps h' l'

theorem emitAfter_keeps (h : f.Sound) (anchor : OpId) (kind : OpKind) (operands : List ValueId)
    (tys : List Ty) :
    Keeps Sound (emitAfter anchor kind operands tys) f fun _ f' => f'.Sound ∧ f.Still f' :=
  emit_keeps h fun _ _ h' l' => insertOpAfter_keeps h' l'

theorem emitAtEnd_keeps (h : f.Sound) (hb : f.LiveBlock b) (kind : OpKind) (operands : List ValueId)
    (tys : List Ty) :
    Keeps Sound (emitAtEnd b kind operands tys) f fun _ f' => f'.Sound ∧ f.Still f' := by
  refine .bind (createOp_keeps h ..) ?_
  rintro op f₁ ⟨h₁, s₁, l₁, hb₁⟩
  have hb' : f₁.LiveBlock b := by rwa [LiveBlock, hb₁]
  refine .bind (appendOp_keeps h₁ hb' l₁) ?_
  rintro _ f₂ ⟨h₂, s₂⟩
  exact .pure ⟨h₂, s₁.trans s₂⟩

theorem detachOp_keeps (h : f.Sound) (op : OpId) :
    Keeps Sound (detachOp op) f fun _ f' =>
      f'.Sound ∧ f.Steady f' (fun _ => False) (· = op) ∧ f'.Loose op := by
  refine .placeOfOp h fun b place bd ho hbd hp => ?_
  obtain ⟨hi, hx⟩ := List.getElem?_eq_some_iff.mp hp
  have hperm := List.getElem_cons_eraseIdx_perm hi
  rw [hx] at hperm
  have hlive : ∀ d, f.op? op = some d → d.live = true := fun d hd => by
    have := h.deadOp op d hd
    grind
  refine .bind (m := fun _ f' => f' = f.atBlock b fun d => { d with ops := d.ops.eraseIdx place })
    (.modifyBlock fun _ _ => rfl) fun _ f₁ hf₁ => ?_
  subst hf₁
  refine .modifyOp fun d hd => ⟨?_, ⟨rfl, fun c => by grind, fun x => by grind, fun c => by grind⟩,
    by grind⟩
  have hn : (op :: bd.ops.eraseIdx place).Nodup := by
    have := h.opsOnce b
    rw [hperm.nodup_iff]
    grind
  refine h.removeOp ho hbd rfl (fun x => ?_) (List.nodup_cons.mp hn).2
  rw [← hperm.mem_iff, List.mem_cons]
  have := (List.nodup_cons.mp hn).1
  grind

/-! ## Blocks -/

theorem newBlock_eq (f : Func) (tys : List Ty) :
    newBlock tys f = .ok ⟨f.blocks.size⟩ (f.withBlock tys) := rfl

theorem newBlock_keeps (h : f.Sound) (tys : List Ty) :
    Keeps Sound (newBlock tys) f fun b f' =>
      f'.Sound ∧ f.Still f' ∧ f'.Free b ∧ f.block? b = none := by
  have hnew : f.block? ⟨f.blocks.size⟩ = none := by simp [block?]
  refine .of_ok (a := ⟨f.blocks.size⟩) (t := f.withBlock tys) rfl
    ⟨h.withBlock .., ⟨rfl, fun b => by grind, fun x => by grind, fun b => by grind⟩, ?_, hnew⟩
  exact ⟨_, by rw [block?_withBlock, if_pos rfl], rfl, rfl⟩

theorem newRegion_keeps (h : f.Sound) (parent : Option OpId) :
    Keeps Sound (newRegion parent) f fun _ f' => f'.Sound ∧ f.Still f' :=
  .of_ok (a := ⟨f.regions.size⟩) (t := f.withRegion parent) rfl
    ⟨h.withRegion .., rfl, fun _ hb => hb, fun _ hx _ => hx, fun _ hb _ => hb⟩

theorem addBlockArg_keeps (h : f.Sound) (b : BlockId) (ty : Ty) :
    Keeps Sound (addBlockArg b ty) f fun _ f' => f'.Sound ∧ f.Still f' := by
  refine .getBlock fun d hb => ?_
  refine .get (.bind (m := fun _ f' => f' = f.withArg b ty d.args.length) rfl fun _ f₁ hf₁ => ?_)
  subst hf₁
  refine .bind (m := fun _ f' => f'.Sound ∧ f.Still f') (.modifyBlock fun _ _ => ?_)
    fun _ f₂ h₂ => .pure h₂
  exact ⟨h.addArg hb ty, rfl, fun c => by grind, fun x => by grind, fun c => by grind⟩

variable {r : RegionId}

/-- A region that lists a block does not belong to a dead op. -/
theorem region_live_of_mem (h : f.Sound) (hr : f.ownerOfBlock b = some r) (op : OpId) (d : Op)
    (hd : f.op? op = some d) (hm : r ∈ d.regions) : d.live = true := by
  have := h.deadOp op d hd
  have := h.blocks r b
  grind

variable {l : List BlockId}

/-- Placing live blocks without an owner in a region. -/
theorem placeBlocks_still {g : Region → Region} (hl : ∀ b ∈ l, f.Free b) :
    f.Steady ((f.setOwners l (some r)).atRegion r g) (· ∈ l) (fun _ => False) where
  body := by simp
  top b := by have := hl b; grind
  atTop x := by
    rintro ⟨b, ho, hb⟩ -
    have := hl b
    exact ⟨b, by grind, by grind⟩
  free b := by grind

/-- Putting live blocks without an owner at a place of a region that is not dead. -/
theorem placeBlocks_keeps {rd : Region} {l' : List BlockId} {g : Region → Region} (h : f.Sound)
    (hl : ∀ b ∈ l, f.Free b) (hn : l.Nodup) (hr : f.region? r = some rd)
    (hlive : ∀ op d, f.op? op = some d → r ∈ d.regions → d.live = true)
    (hg : g rd = { rd with blocks := l' }) (hperm : l'.Perm (l ++ rd.blocks)) :
    Keeps Sound (modifyRegion r g) (f.setOwners l (some r)) fun _ f' =>
      f'.Sound ∧ f.Steady f' (· ∈ l) (fun _ => False) ∧
        (∀ b ∈ l, f'.ownerOfBlock b = some r) ∧ f'.op? = f.op? := by
  refine .modifyRegion fun _ _ => ⟨h.placeBlocks hl hr hlive hg (fun x => ?_) ?_,
    placeBlocks_still hl, fun b hb => ?_, funext fun x => by simp⟩
  · rw [hperm.mem_iff, List.mem_append]
  · rw [hperm.nodup_iff]
    refine hn.append (by have := h.blocksOnce r; grind) fun b hb hb' => ?_
    have := h.blocks r b
    grind
  · have := hl b hb
    grind

theorem appendBlock_keeps (h : f.Sound) (hb : f.Free b)
    (hr : ∀ op d, f.op? op = some d → r ∈ d.regions → d.live = true) :
    Keeps Sound (appendBlock r b) f fun _ f' =>
      f'.Sound ∧ f.Steady f' (· ∈ [b]) (fun _ => False) ∧ f'.ownerOfBlock b = some r := by
  refine .bind (m := fun _ f' => f' = f.setOwners [b] (some r)) (.modifyBlock fun _ _ => rfl)
    fun _ f₁ hf₁ => ?_
  subst hf₁
  by_cases hrd : ∃ rd, f.region? r = some rd
  · obtain ⟨rd, hrd⟩ := hrd
    refine (placeBlocks_keeps h (l := [b]) (by simpa using hb) (by simp) hrd hr rfl
      List.perm_append_comm).mono ?_
    rintro _ f' ⟨h', s', o', _⟩
    exact ⟨h', s', o' b (by simp)⟩
  · exact .modifyRegion fun rd hrd' => (hrd ⟨rd, by simpa using hrd'⟩).elim

theorem insertBlockAfter_keeps {anchor : BlockId} (h : f.Sound) (hb : f.Free b) :
    Keeps Sound (insertBlockAfter anchor b) f fun _ f' =>
      f'.Sound ∧ f.Steady f' (· ∈ [b]) (fun _ => False) ∧
        f'.ownerOfBlock b = f.ownerOfBlock anchor ∧ f'.op? = f.op? := by
  refine .placeOfBlock h fun r place rd ho hrd hp => ?_
  refine .bind (m := fun _ f' => f' = f.setOwners [b] (some r)) (.modifyBlock fun _ _ => rfl)
    fun _ f₁ hf₁ => ?_
  subst hf₁
  have hi := (List.getElem?_eq_some_iff.mp hp).1
  refine (placeBlocks_keeps h (l := [b]) (by simpa using hb) (by simp) hrd
    (region_live_of_mem h ho) rfl (List.perm_insertIdx b _ hi)).mono ?_
  rintro _ f' ⟨h', s', o', e'⟩
  exact ⟨h', s', (o' b (by simp)).trans ho.symm, e'⟩

/-- Blocks without an owner are claimed one and all. -/
theorem claimBlocks_keeps (hl : ∀ b ∈ l, f.Free b) (hn : l.Nodup) :
    Keeps Sound (claimBlocks r l) f fun _ f' => f' = f.setOwners l (some r) := by
  induction l generalizing f with
  | nil => exact .pure rfl
  | cons b l ih =>
    obtain ⟨d, hd, hp, -⟩ := hl b (by simp)
    have hread : getBlock b f = .ok d f := by
      change (liftM (f.block b) : Edit Block) f = _
      rw [Func.block, hd]
      rfl
    refine .bind (m := fun e f' => e = d ∧ f' = f) (.of_ok hread ⟨rfl, rfl⟩) ?_
    rintro e f' ⟨he, hf'⟩
    rw [he, hf', hp]
    refine .bind (m := fun _ f' => f' = f.atBlock b fun d => { d with parent := some r })
      (.modifyBlock fun _ _ => rfl) fun _ f₁ hf₁ => ?_
    subst hf₁
    refine ih (fun c hc => ?_) (List.nodup_cons.mp hn).2
    have := hl c (by simp [hc])
    have := (List.nodup_cons.mp hn).1
    grind

theorem spliceBefore_keeps {anchor : BlockId} (h : f.Sound) (hl : ∀ b ∈ l, f.Free b)
    (hn : l.Nodup) : Keeps Sound (spliceBefore anchor l) f fun _ f' =>
      f'.Sound ∧ f.Steady f' (· ∈ l) (fun _ => False) := by
  refine .placeOfBlock h fun r place rd ho hrd hp => ?_
  refine .bind (claimBlocks_keeps hl hn) fun _ f₁ hf₁ => ?_
  subst hf₁
  refine (placeBlocks_keeps h hl hn hrd (region_live_of_mem h ho) rfl ?_).mono ?_
  rotate_left
  · rintro _ f' ⟨h', s', _⟩
    exact ⟨h', s'⟩
  calc rd.blocks.take place ++ l ++ rd.blocks.drop place
      _ = rd.blocks.take place ++ (l ++ rd.blocks.drop place) := List.append_assoc ..
      _ |>.Perm (l ++ (rd.blocks.take place ++ rd.blocks.drop place)) := by
          rw [← List.append_assoc, ← List.append_assoc]
          exact List.perm_append_comm.append_right _
      _ = l ++ rd.blocks := by rw [List.take_append_drop]

theorem takeRegion_eq {I : Func → Prop} (r : RegionId) :
    Keeps I (takeRegion r) f fun l f' => l = f.blocksIn r ∧
      f' = (f.atRegion r fun d => { d with blocks := [] }).setOwners (f.blocksIn r) none := by
  refine .getRegion fun rd hrd => ?_
  have hlist : f.blocksIn r = rd.blocks := by rw [blocksIn, hrd]
  refine .bind (m := fun _ f' => f' = f.atRegion r fun d => { d with blocks := [] })
    (.modifyRegion fun _ _ => rfl) fun _ f₁ hf₁ => ?_
  subst hf₁
  rw [hlist]
  exact .bind (.setBlockParents (Q := fun _ f' => f' = _) rfl) fun _ f₂ hf₂ =>
    .pure ⟨rfl, hf₂⟩

theorem takeRegion_keeps (h : f.Sound) (hr : r ≠ f.body) : Keeps Sound (takeRegion r) f fun l f' =>
      f'.Sound ∧ f.Still f' ∧ (∀ b ∈ l, f'.Free b) ∧ l.Nodup ∧ ∀ b ∈ l, ¬ f.Free b := by
  refine (takeRegion_eq r).mono ?_
  rintro _ _ ⟨rfl, rfl⟩
  have hmem : ∀ b, b ∈ f.blocksIn r →
      ∃ d, f.block? b = some d ∧ d.parent = some r ∧ d.live = true := by
    intro b hb
    have h₁ := (h.blocks r b).mp hb
    unfold ownerOfBlock at h₁
    split at h₁
    · rename_i d hd
      have := h.deadBlock b d hd
      exact ⟨d, hd, h₁, by grind⟩
    · cases h₁
  refine ⟨h.takeBlocks, ⟨by simp, fun b hb => ?_, ?_, fun b hb _ => ?_⟩, fun b hb => ?_,
    h.blocksOnce r, fun b hb hf => ?_⟩
  · have := hmem b
    grind
  · rintro x ⟨b, ho, hb⟩ -
    have := hmem b
    exact ⟨b, by grind, by grind⟩
  · have := hmem b
    grind
  · have := hmem b hb
    grind
  · have := hmem b hb
    grind

theorem splitAfter_keeps (h : f.Sound) (op : OpId) :
    Keeps Sound (splitAfter op) f fun _ f' => f'.Sound ∧ f.Still f' := by
  refine .placeOfOp h fun b place bd ho hbd hp => ?_
  refine .getBlock fun bd' hbd' => ?_
  obtain rfl : bd' = bd := by grind
  refine .bind (m := fun _ f' => f' = f.atBlock b fun d => { d with ops := d.ops.take (place + 1) })
    (.modifyBlock fun _ _ => rfl) fun _ f₁ hf₁ => ?_
  subst hf₁
  refine .bind (m := fun c f' => c = ⟨f.blocks.size⟩ ∧
    f' = (f.atBlock b fun d => { d with ops := d.ops.take (place + 1) }).withBlock []) ?_ ?_
  · exact .of_ok (newBlock_eq _ _) ⟨by simp [atBlock], rfl⟩
  rintro c _ ⟨hc, rfl⟩
  refine .bind (.setOpParents (Q := fun _ f' => f' = _) rfl) fun _ f₃ hf₃ => ?_
  have hlive := liveBlock_of_mem h hbd (List.mem_of_getElem? hp)
  have hnew : f.block? c = none := by simp [block?, hc]
  have hmoved : ∀ x ∈ bd'.ops.drop (place + 1), f.ownerOfOp x = some b := fun x hx => by
    have := h.ops b x
    have := List.mem_of_mem_drop hx
    grind
  refine .bind (m := fun _ f' => f'.Sound ∧ f'.Free c ∧ f'.body = f.body ∧
    (∀ x, f'.ownerOfOp x = f.ownerOfOp x ∨ f.ownerOfOp x = some b ∧ f'.ownerOfOp x = some c) ∧
    ∀ e, e ≠ c → f'.ownerOfBlock e = f.ownerOfBlock e ∧ (f.Free e → f'.Free e))
    (.modifyBlock fun d hd => ?_) ?_
  · subst hf₃
    refine ⟨h.moveTail hbd (List.take_append_drop (place + 1) _).symm hlive rfl rfl hc, ?_, by simp,
      fun x => ?_, fun e he => ?_⟩
    · grind
    · have := hmoved x
      cases hx : f.op? x <;> grind
    · grind
  · rintro _ f₄ ⟨h₄, fr₄, hb₄, ho₄, hr₄⟩
    refine .bind (insertBlockAfter_keeps h₄ fr₄) ?_
    rintro _ f₅ ⟨h₅, s₅, o₅, e₅⟩
    refine .pure ⟨h₅, ?_⟩
    have hbc : b ≠ c := by grind
    refine ⟨s₅.body.trans hb₄, fun e he => ?_, ?_, fun e he _ => ?_⟩
    · rw [← hb₄]
      refine s₅.top e ?_
      rw [(hr₄ e (by grind)).1, he, hb₄]
    · rintro x ⟨e, hx, he⟩ -
      have he₄ : f₄.ownerOfBlock e = some f₄.body := by rw [(hr₄ e (by grind)).1, he, hb₄]
      obtain hx₄ | ⟨hx₄, hx₄'⟩ := ho₄ x
      · exact s₅.atTop x ⟨e, hx₄.trans hx, he₄⟩ (by simp)
      · -- A moved op went from the block of `op` to the new one, which lies in the same region.
        obtain rfl : e = b := by simpa [hx] using hx₄
        refine ⟨c, ?_, by rw [o₅, he₄, s₅.body]⟩
        rw [ownerOfOp, e₅, ← ownerOfOp, hx₄']
    · have hec : e ≠ c := by
        rintro rfl
        obtain ⟨d, hd, -⟩ := he
        simp [hnew] at hd
      exact s₅.free e ((hr₄ e hec).2 he) (by simpa using hec)

end Edit

end Unnest
