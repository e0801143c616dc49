import Unnest.Proofs.Ownership.Reachable
/-!
# What failing edits leave behind

An edit looks up the place it works at before it changes anything, so an edit that fails because
that place is missing leaves every node as it was. Two edits can also fail later. Splicing blocks
claims them one after another and stops at the first that has an owner; the blocks before it then
record a region that does not list them. Splitting a block moves the ops before it looks for the
place of the new block, which a block without an owner does not have.

`Edit.Call.Remains` says for every edit what it leaves when it fails.
-/

namespace Unnest

open Func

variable {σ α β γ : Type}

/-- Every node of `f` is in `f'` as it was. -/
structure Func.Intact (f f' : Func) : Prop where
  op {x : OpId} {d : Op} : f.op? x = some d → f'.op? x = some d
  block {b : BlockId} {d : Block} : f.block? b = some d → f'.block? b = some d
  region {r : RegionId} {d : Region} : f.region? r = some d → f'.region? r = some d

theorem Func.Intact.refl (f : Func) : f.Intact f := ⟨id, id, id⟩

/-- A computation that never stops with an error of its own. -/
def Unfailing (x : EStateM Stop σ α) : Prop := ∀ s, Keeps (fun _ => False) x s fun _ _ => True

namespace Unfailing

variable {x : EStateM Stop σ α}

theorem bind {k : α → EStateM Stop σ β} (h : Unfailing x) (hk : ∀ a, Unfailing (k a)) :
    Unfailing (x >>= k) :=
  fun s => .bind (h s) fun a s' _ => hk a s'

theorem pure (a : α) : Unfailing (Pure.pure a : EStateM Stop σ α) := fun _ => .pure trivial

theorem forM {l : List γ} {k : γ → EStateM Stop σ PUnit} (h : ∀ c, Unfailing (k c)) :
    Unfailing (l.forM k) :=
  fun _ => .forM (m := fun _ _ => True) trivial fun c _ s _ => h c s

theorem foldlM {l : List γ} {k : β → γ → EStateM Stop σ β} (h : ∀ b c, Unfailing (k b c)) (b : β) :
    Unfailing (l.foldlM k b) :=
  fun _ => .foldlM (m := fun _ => True) trivial fun b c _ s _ => h b c s

theorem mapM {l : List γ} {k : γ → EStateM Stop σ β} (h : ∀ c, Unfailing (k c)) :
    Unfailing (l.mapM k) :=
  fun _ => .mapM (m := fun _ => True) trivial fun c s _ => h c s

end Unfailing

namespace Edit

theorem getOp_unfailing (x : OpId) : Unfailing (getOp x) :=
  fun _ => (getOp_keeps x).mono fun _ _ _ => trivial

theorem getBlock_unfailing (b : BlockId) : Unfailing (getBlock b) := fun f => by
  simpa using Keeps.getBlock (f := f) (b := b) (I := fun _ => False) (Q := fun _ _ => True)
    (k := pure) fun _ _ => .pure trivial

theorem getRegion_unfailing (r : RegionId) : Unfailing (getRegion r) := fun f => by
  simpa using Keeps.getRegion (f := f) (r := r) (I := fun _ => False) (Q := fun _ _ => True)
    (k := pure) fun _ _ => .pure trivial

theorem valueTy_unfailing (v : ValueId) : Unfailing (valueTy v) := by
  intro f
  change Keeps _ (liftM (f.valueTy v) : Edit Ty) f _
  unfold Func.valueTy Func.value existing
  split
  · exact .pure trivial
  · exact .stop (by simp)

theorem modifyOp_unfailing (x : OpId) (g : Op → Op) : Unfailing (modifyOp x g) :=
  fun _ => .modifyOp fun _ _ => trivial

theorem modifyBlock_unfailing (b : BlockId) (g : Block → Block) : Unfailing (modifyBlock b g) :=
  fun _ => .modifyBlock fun _ _ => trivial

theorem modifyRegion_unfailing (r : RegionId) (g : Region → Region) :
    Unfailing (modifyRegion r g) :=
  fun _ => .modifyRegion fun _ _ => trivial

theorem newBlock_unfailing (tys : List Ty) : Unfailing (newBlock tys) :=
  fun f => .of_ok (newBlock_eq f tys) trivial

theorem createOp_unfailing (kind : OpKind) (operands : List ValueId) (tys : List Ty) (n : Nat) :
    Unfailing (createOp kind operands tys n) :=
  fun _ => .of_ok rfl trivial

theorem appendBlock_unfailing (r : RegionId) (b : BlockId) : Unfailing (appendBlock r b) :=
  (modifyBlock_unfailing b _).bind fun _ => modifyRegion_unfailing r _

theorem appendOp_unfailing (b : BlockId) (x : OpId) : Unfailing (appendOp b x) :=
  (modifyOp_unfailing x _).bind fun _ => modifyBlock_unfailing b _

theorem takeRegion_unfailing (r : RegionId) : Unfailing (takeRegion r) :=
  (getRegion_unfailing r).bind fun _ => (modifyRegion_unfailing r _).bind fun _ =>
    (Unfailing.forM fun b => modifyBlock_unfailing b _).bind fun _ => .pure _

/-! ## Erasing and cloning -/

section

variable {clear : RegionId → Edit Unit}

theorem killOp_unfailing (hc : ∀ r, Unfailing (clear r)) (x : OpId) : Unfailing (killOp clear x) :=
  (modifyOp_unfailing x _).bind fun _ => (getOp_unfailing x).bind fun _ => .forM hc

theorem killBlock_unfailing (hc : ∀ r, Unfailing (clear r)) (b : BlockId) :
    Unfailing (killBlock clear b) :=
  (modifyBlock_unfailing b _).bind fun _ => (getBlock_unfailing b).bind fun _ =>
    (modifyBlock_unfailing b _).bind fun _ => .forM fun x =>
      (modifyOp_unfailing x _).bind fun _ => killOp_unfailing hc x

theorem clearTo_unfailing (levels : Nat) (r : RegionId) : Unfailing (clearTo levels r) := by
  induction levels generalizing r with
  | zero => exact fun _ => .stop (by simp)
  | succ levels ih => exact (takeRegion_unfailing r).bind fun _ => .forM (killBlock_unfailing ih)

theorem clearRegion_unfailing (r : RegionId) : Unfailing (clearRegion r) :=
  fun _ => .get (clearTo_unfailing _ r _)

end

theorem copyOp_unfailing {copyRegion : CloneMap → RegionId × RegionId → Edit CloneMap}
    (hc : ∀ m p, Unfailing (copyRegion m p)) (b : BlockId) (m : CloneMap) (x : OpId) :
    Unfailing (copyOp copyRegion b m x) :=
  (getOp_unfailing x).bind fun _ => (Unfailing.mapM valueTy_unfailing).bind fun _ =>
    (createOp_unfailing _ _ _ _).bind fun y => (modifyOp_unfailing y _).bind fun _ =>
      (getOp_unfailing y).bind fun _ => (Unfailing.foldlM hc _).bind fun _ =>
        (appendOp_unfailing b y).bind fun _ => .pure _

theorem copyBlock_unfailing {copyRegion : CloneMap → RegionId × RegionId → Edit CloneMap}
    (hc : ∀ m p, Unfailing (copyRegion m p)) (m : CloneMap) (b : BlockId) :
    Unfailing (copyBlock copyRegion m b) :=
  (getBlock_unfailing b).bind fun _ => (Unfailing.mapM valueTy_unfailing).bind fun _ =>
    (newBlock_unfailing _).bind fun c => (getBlock_unfailing c).bind fun _ =>
      (getBlock_unfailing b).bind fun _ =>
        (Unfailing.foldlM (copyOp_unfailing hc c) _).bind fun _ => .pure _

theorem copyRegionTo_unfailing (levels : Nat) (m : CloneMap) (p : RegionId × RegionId) :
    Unfailing (copyRegionTo levels m p) := by
  induction levels generalizing m p with
  | zero => exact fun _ => .stop (by simp)
  | succ levels ih =>
    exact (getRegion_unfailing _).bind fun _ => .foldlM (fun m b =>
      (copyBlock_unfailing ih m b).bind fun _ => (appendBlock_unfailing _ _).bind fun _ =>
        .pure _) m

theorem copyBlocks_unfailing (levels : Nat) (m : CloneMap) (l : List BlockId) :
    Unfailing (copyBlocks levels m l) := by
  induction l generalizing m with
  | nil => exact .pure _
  | cons b l ih =>
    exact (copyBlock_unfailing (copyRegionTo_unfailing levels) m b).bind fun _ =>
      (ih _).bind fun _ => .pure _

theorem cloneRegion_unfailing (r : RegionId) : Unfailing (cloneRegion r) :=
  fun _ => .get (((getRegion_unfailing r).bind fun _ => (copyBlocks_unfailing _ _ _).bind fun p =>
    (Unfailing.forM fun q : OpId × OpId => modifyOp_unfailing q.2 _).bind fun _ =>
      .pure (p.1, p.2)) _)

/-! ## Looking up places -/

variable {f : Func}

/-- An op that its owner lists has no place only if it has no owner. -/
theorem placeOfOp_fails {x : OpId} (hx : ∀ b, f.ownerOfOp x = some b → x ∈ f.opsIn b) :
    Keeps (fun f' => f.ownerOfOp x = none ∧ f' = f) (placeOfOp x) f fun p f' =>
      f' = f ∧ f.ownerOfOp x = some p.1 ∧ (f.opsIn p.1)[p.2]? = some x := by
  refine .getOp fun d hd => ?_
  have ho : f.ownerOfOp x = d.parent := by simp [ownerOfOp, hd]
  split
  · rename_i hp
    exact .throw ⟨ho.trans hp, rfl⟩
  · rename_i b hp
    refine .getBlock fun bd hb => ?_
    have hops : f.opsIn b = bd.ops := by simp [opsIn, hb]
    split
    · rename_i hnone
      have hx : x ∈ bd.ops := hops ▸ hx b (ho.trans hp)
      simpa using List.findIdx?_eq_none_iff.mp hnone x hx
    · rename_i place hplace
      obtain ⟨hi, hx, -⟩ := List.findIdx?_eq_some_iff_getElem.mp hplace
      exact .pure ⟨rfl, ho.trans hp, by simpa [hops, hi] using hx⟩

/-- A block that its owner lists has no place only if it has no owner. -/
theorem placeOfBlock_fails {b : BlockId} (hb : ∀ r, f.ownerOfBlock b = some r → b ∈ f.blocksIn r) :
    Keeps (fun f' => f.ownerOfBlock b = none ∧ f' = f) (placeOfBlock b) f fun p f' =>
      f' = f ∧ f.ownerOfBlock b = some p.1 := by
  refine .getBlock fun d hd => ?_
  have ho : f.ownerOfBlock b = d.parent := by simp [ownerOfBlock, hd]
  split
  · rename_i hp
    exact .throw ⟨ho.trans hp, rfl⟩
  · rename_i r hp
    refine .getRegion fun rd hr => ?_
    have hblocks : f.blocksIn r = rd.blocks := by simp [blocksIn, hr]
    split
    · rename_i hnone
      have hb : b ∈ rd.blocks := hblocks ▸ hb r (ho.trans hp)
      simpa using List.findIdx?_eq_none_iff.mp hnone b hb
    · exact .pure ⟨rfl, ho.trans hp⟩

/-- An edit that can fail only where it looks up the place of an op. -/
theorem atPlaceOfOp_fails {x : OpId} {k : BlockId × Nat → Edit α} (hf : f.Owned)
    (hk : ∀ p, Unfailing (k p)) :
    Keeps (fun f' => f.ownerOfOp x = none ∧ f' = f) (placeOfOp x >>= k) f fun _ _ => True :=
  .bind (placeOfOp_fails fun b => (hf.ops b x).mpr) fun p f' _ =>
    (hk p f').weaken fun _ => False.elim

theorem atPlaceOfBlock_fails {b : BlockId} {k : RegionId × Nat → Edit α} (hf : f.Owned)
    (hk : ∀ p, Unfailing (k p)) :
    Keeps (fun f' => f.ownerOfBlock b = none ∧ f' = f) (placeOfBlock b >>= k) f fun _ _ => True :=
  .bind (placeOfBlock_fails fun r => (hf.blocks r b).mpr) fun p f' _ =>
    (hk p f').weaken fun _ => False.elim

/-! ## The edits -/

/-- Claiming blocks stops at the first that has an owner, which may be the one it was just given. -/
theorem claimBlocks_fails (r : RegionId) (l : List BlockId) :
    Keeps (fun f' => ∃ claimed b rest, l = claimed ++ b :: rest ∧
      (∀ c ∈ claimed, f.ownerOfBlock c = none) ∧ (b ∈ claimed ∨ f.ownerOfBlock b ≠ none) ∧
      f' = f.setOwners claimed (some r)) (claimBlocks r l) f fun _ _ => True := by
  induction l generalizing f with
  | nil => exact .pure trivial
  | cons b l ih =>
    refine .getBlock fun bd hbd => ?_
    have ho : f.ownerOfBlock b = bd.parent := by simp [ownerOfBlock, hbd]
    split
    · rename_i owner hp
      exact .throw ⟨[], b, l, rfl, by simp, .inr (by simp [ho, hp]), rfl⟩
    · rename_i hp
      refine .bind (m := fun _ f' => f' = f.atBlock b fun d => { d with parent := some r })
        (.modifyBlock fun _ _ => rfl) fun _ f₁ hf₁ => ?_
      subst hf₁
      refine ih.weaken ?_
      rintro f' ⟨claimed, c, rest, rfl, hclaimed, hc, rfl⟩
      have howner (c : BlockId) :
        (f.atBlock b fun d => { d with parent := some r }).ownerOfBlock c =
          if c = b then some r else f.ownerOfBlock c := by
        grind
      refine ⟨b :: claimed, c, rest, rfl, fun d hd => ?_, ?_, rfl⟩
      · obtain rfl | hd := List.mem_cons.mp hd
        · rw [ho, hp]
        · have := hclaimed d hd
          rw [howner] at this
          split at this <;> simp_all
      · rw [howner] at hc
        split at hc <;> simp_all

namespace Call

/-- What an edit leaves of a function whose nodes are owned when it fails: `f'` is the function
left. -/
def Remains (f : Func) : Call → Func → Prop
  | insertBlockAfter anchor _, f' => f.ownerOfBlock anchor = none ∧ f' = f
  | spliceBefore anchor l, f' =>
    (f.ownerOfBlock anchor = none ∧ f' = f) ∨
    ∃ r claimed b rest, f.ownerOfBlock anchor = some r ∧ l = claimed ++ b :: rest ∧
      (∀ c ∈ claimed, f.ownerOfBlock c = none) ∧ (b ∈ claimed ∨ f.ownerOfBlock b ≠ none) ∧
      f' = f.setOwners claimed (some r)
  | insertOpBefore op _, f' | insertOpAfter op _, f' | detachOp op, f' =>
    f.ownerOfOp op = none ∧ f' = f
  | emitBefore op kind operands tys, f' | emitAfter op kind operands tys, f' =>
    f.ownerOfOp op = none ∧ ∃ span, f' = (f.withOp kind operands tys 0).atOp ⟨f.ops.size⟩
      fun d => { d with span }
  | splitAfter op, f' =>
    (f.ownerOfOp op = none ∧ f' = f) ∨
    ∃ b place, f.ownerOfOp op = some b ∧ (f.opsIn b)[place]? = some op ∧
      f.ownerOfBlock b = none ∧ f' = f.splitBlock b (place + 1) ((f.opsIn b).drop (place + 1))
  | _, _ => False

variable {f f' : Func}

theorem intact_withOp (f : Func) (kind : OpKind) (operands : List ValueId) (tys : List Ty)
    (g : Op → Op) : f.Intact ((f.withOp kind operands tys 0).atOp ⟨f.ops.size⟩ g) where
  op {x d} hd := by
    have hx : x ≠ ⟨f.ops.size⟩ := by
      rintro rfl
      simp [op?] at hd
    rw [op?_atOp, if_neg hx, op?_withOp, if_neg hx, hd]
  block hd := hd
  region {r d} hd := by simpa [withOp, region?, atOp] using hd

/-- Only splicing and splitting can fail after they changed something. -/
theorem Remains.intact {c : Call} (h : c.Remains f f') :
    f.Intact f' ∨ (∃ anchor l, c = spliceBefore anchor l) ∨ ∃ op, c = splitAfter op := by
  cases c with
  | spliceBefore anchor l => exact .inr (.inl ⟨anchor, l, rfl⟩)
  | splitAfter op => exact .inr (.inr ⟨op, rfl⟩)
  | insertBlockAfter | insertOpBefore | insertOpAfter | detachOp =>
    obtain ⟨-, rfl⟩ := h
    exact .inl (.refl _)
  | emitBefore op kind operands tys | emitAfter op kind operands tys =>
    obtain ⟨-, span, rfl⟩ := h
    exact .inl (intact_withOp f kind operands tys _)
  | _ => exact h.elim

/-- A new op is created before the place it is meant for is looked up. -/
theorem emit_fails {x : OpId} {kind : OpKind} {operands : List ValueId} {tys : List Ty}
    {place : OpId → BlockId × Nat → Edit Unit} (hf : f.Owned)
    (hplace : ∀ y p, Unfailing (place y p)) :
    Keeps (fun f' => f.ownerOfOp x = none ∧ ∃ span, f' = (f.withOp kind operands tys 0).atOp
      ⟨f.ops.size⟩ fun d => { d with span }) (do
        let y ← Edit.createOp kind operands tys 0
        Edit.setSpan y (← getOp x).span
        placeOfOp x >>= place y
        return y) f fun _ _ => True := by
  refine .bind (m := fun y f' => y = ⟨f.ops.size⟩ ∧ f' = f.withOp kind operands tys 0)
    (.of_ok rfl ⟨rfl, rfl⟩) ?_
  rintro _ _ ⟨rfl, rfl⟩
  refine .getOp fun e _ => .bind (m := fun _ f' => f' = (f.withOp kind operands tys 0).atOp
    ⟨f.ops.size⟩ fun d => { d with span := e.span }) (.modifyOp fun _ _ => rfl) ?_
  rintro _ f₁ hf₁
  have howner : f₁.ownerOfOp x = f.ownerOfOp x := by
    subst hf₁
    grind
  have hops (b : BlockId) : f₁.opsIn b = f.opsIn b := by
    subst hf₁
    rfl
  refine .bind (m := fun _ _ => True) (.bind ((placeOfOp_fails fun b hb => ?_).weaken ?_)
    fun p f' _ => (hplace _ p f').weaken fun _ => False.elim) fun _ _ _ => .pure trivial
  · exact hops b ▸ (hf.ops b x).mpr (howner ▸ hb)
  · rintro f' ⟨hnone, rfl⟩
    exact ⟨howner ▸ hnone, e.span, hf₁⟩

theorem splitAfter_fails (hf : f.Owned) (x : OpId) :
    Keeps ((splitAfter x).Remains f) (Edit.splitAfter x) f fun _ _ => True := by
  refine .bind ((placeOfOp_fails fun b => (hf.ops b x).mpr).weaken fun _ => .inl) ?_
  rintro p f ⟨rfl, hx, hplace⟩
  refine .getBlock fun bd hb => ?_
  have hops : f.opsIn p.1 = bd.ops := by simp [opsIn, hb]
  refine .bind (m := fun _ f' => f' = f.atBlock p.1 fun d => { d with ops := d.ops.take (p.2 + 1) })
    (.modifyBlock fun _ _ => rfl) fun _ f₁ hf₁ => ?_
  refine .bind (m := fun c f' => c = ⟨f.blocks.size⟩ ∧ f' = f₁.withBlock [])
    (.of_ok (newBlock_eq _ _) ⟨by simp [hf₁, atBlock], rfl⟩) ?_
  rintro _ f₂ ⟨rfl, hf₂⟩
  refine .bind (.setOpParents (Q := fun _ f' => f' = _) rfl) fun _ f₃ hf₃ => ?_
  refine .bind (m := fun _ f' => f' = f.splitBlock p.1 (p.2 + 1) (bd.ops.drop (p.2 + 1)))
    (.modifyBlock fun _ _ => by rw [hf₃, hf₂, hf₁]; rfl) fun _ f₄ hf₄ => ?_
  have howner : f₄.ownerOfBlock p.1 = f.ownerOfBlock p.1 := by
    rw [hf₄, ownerOfBlock, block?_splitBlock hb]
    grind
  have hblocks (r : RegionId) : f₄.blocksIn r = f.blocksIn r := by simp [hf₄, blocksIn]
  refine .bind (m := fun _ _ => True) (.bind ((placeOfBlock_fails fun r hr => ?_).weaken ?_) ?_)
    fun _ _ _ => .pure trivial
  · exact hblocks r ▸ (hf.blocks r p.1).mpr (howner ▸ hr)
  · rintro f' ⟨hnone, rfl⟩
    exact .inr ⟨p.1, p.2, hx, hplace, howner ▸ hnone, hops ▸ hf₄⟩
  · rintro q f' -
    exact (((modifyBlock_unfailing _ _).bind fun _ => modifyRegion_unfailing q.1 _) f').weaken
      fun _ => False.elim

theorem run_fails (hf : f.Owned) (c : Call) : Keeps (c.Remains f) c.run f fun _ _ => True := by
  have unfailing {α : Type} {x : Edit α} (hx : Unfailing x) :
      Keeps (c.Remains f) (discard x) f fun _ _ => True :=
    .map ((hx f).weaken fun _ => False.elim)
  cases c with
  | insertBlockAfter anchor b =>
    exact atPlaceOfBlock_fails hf fun p => (modifyBlock_unfailing b _).bind fun _ =>
      modifyRegion_unfailing p.1 _
  | insertOpBefore op x | insertOpAfter op x =>
    exact atPlaceOfOp_fails hf fun p => (modifyOp_unfailing x _).bind fun _ =>
      modifyBlock_unfailing p.1 _
  | detachOp op =>
    exact atPlaceOfOp_fails hf fun p => (modifyBlock_unfailing p.1 _).bind fun _ =>
      modifyOp_unfailing op _
  | emitBefore op kind operands tys | emitAfter op kind operands tys =>
    exact .map (emit_fails hf fun y p => (modifyOp_unfailing y _).bind fun _ =>
      modifyBlock_unfailing p.1 _)
  | splitAfter op => exact .map (splitAfter_fails hf op)
  | spliceBefore anchor l =>
    refine .bind ((placeOfBlock_fails fun r => (hf.blocks r anchor).mpr).weaken fun _ => .inl) ?_
    rintro p _ ⟨rfl, hr⟩
    refine .bind ((claimBlocks_fails p.1 l).weaken ?_) fun _ f' _ =>
      .modifyRegion fun _ _ => trivial
    rintro f' ⟨claimed, b, rest, h⟩
    exact .inr ⟨p.1, claimed, b, rest, hr, h⟩
  | eraseOp op =>
    refine .getOp fun d hd => ?_
    dsimp only
    split
    · rename_i hp
      refine .bind (m := fun _ _ => True) ((atPlaceOfOp_fails hf fun p =>
        (modifyBlock_unfailing p.1 _).bind fun _ => modifyOp_unfailing op _).weaken ?_)
        fun _ f' _ => (killOp_unfailing clearRegion_unfailing op f').weaken fun _ => False.elim
      rintro _ ⟨hnone, -⟩
      simp [ownerOfOp, hd] at hnone
      simp [hnone] at hp
    · exact (killOp_unfailing clearRegion_unfailing op f).weaken fun _ => False.elim
  | eraseBlock b =>
    refine .getBlock fun d hd => ?_
    dsimp only
    split
    · rename_i hp
      refine (atPlaceOfBlock_fails hf fun p => (modifyRegion_unfailing p.1 _).bind fun _ =>
        (modifyBlock_unfailing b _).bind fun _ =>
          killBlock_unfailing clearRegion_unfailing b).weaken ?_
      rintro _ ⟨hnone, -⟩
      simp [ownerOfBlock, hd] at hnone
      simp [hnone] at hp
    · exact (killBlock_unfailing clearRegion_unfailing b f).weaken fun _ => False.elim
  | newRegion | newBlock | createOp | replaceAllUses => exact .of_ok rfl trivial
  | addBlockArg b ty =>
    exact .map (.getBlock fun _ _ => .get (.bind (m := fun _ _ => True) (.of_ok rfl trivial)
      fun _ f' _ => (((modifyBlock_unfailing b _).bind fun _ => .pure _) f').weaken
        fun _ => False.elim))
  | setSpan op | replaceKind op | setOperands op => exact .modifyOp fun _ _ => trivial
  | appendBlock r b => exact (appendBlock_unfailing r b f).weaken fun _ => False.elim
  | takeRegion r => exact unfailing (takeRegion_unfailing r)
  | appendOp b op => exact (appendOp_unfailing b op f).weaken fun _ => False.elim
  | insertOpAtStart b op =>
    exact (((modifyOp_unfailing op _).bind fun _ => modifyBlock_unfailing b _) f).weaken
      fun _ => False.elim
  | emitAtEnd b kind operands tys =>
    exact unfailing ((createOp_unfailing _ _ _ _).bind fun x =>
      (appendOp_unfailing b x).bind fun _ => .pure _)
  | discardBlocks l =>
    exact (Unfailing.forM (killBlock_unfailing clearRegion_unfailing) f).weaken fun _ => False.elim
  | cloneRegion r => exact unfailing (cloneRegion_unfailing r)

/-- A failing edit leaves every node as it was, but for two: splicing leaves the blocks before the
first that has an owner claimed by a region that does not list them, and splitting a block without
an owner leaves it split. -/
theorem failed_remains (hf : f.Owned) (c : Call) {e : Error} (h : c.run f = .error (.failed e) f') :
    c.Remains f f' ∧
      (f.Intact f' ∨ (∃ anchor l, c = spliceBefore anchor l) ∨ ∃ op, c = splitAfter op) := by
  have hremains : c.Remains f f' := by
    have := run_fails hf c
    rw [Keeps, h] at this
    exact this trivial
  exact ⟨hremains, hremains.intact⟩

/-- A function with a block that has no owner besides its entry. -/
def spareBlock : Func := left (newBlock []).run (Builder.new "f" ⟨[], .void⟩).func

theorem spareBlock_reachable : spareBlock.Reachable :=
  .edited (newBlock []) (.built "f" ⟨[], .void⟩ [] (leaves_left (by decide +kernel))) trivial
    (leaves_left (by decide +kernel))

/-- Splicing a block without an owner and the entry before the entry. -/
def spliceOwned : Call := spliceBefore ⟨0⟩ [⟨1⟩, ⟨0⟩]

theorem failed_remains_spliceOwned : ∃ e f',
    spliceOwned.run spareBlock = .error (.failed e) f' ∧ spliceOwned.Remains spareBlock f' :=
  ⟨_, _, rfl, (failed_remains spareBlock_reachable.sound.owned spliceOwned rfl).1⟩

/-- The block without an owner now records one, although the splice has failed. -/
theorem splice_claims_before_failing : spareBlock.Owned ∧ ∃ e f',
    spliceOwned.run spareBlock = .error (.failed e) f' ∧
      spareBlock.ownerOfBlock ⟨1⟩ = none ∧ f'.ownerOfBlock ⟨1⟩ = some f'.body ∧
      f'.blocksIn f'.body = [⟨0⟩] :=
  ⟨spareBlock_reachable.sound.owned, _, _, rfl, rfl, rfl, rfl⟩

end Call

end Edit

end Unnest
