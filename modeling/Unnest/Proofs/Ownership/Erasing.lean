import Unnest.Proofs.Ownership.Edits
/-!
# Erasing keeps ownership

While an erasure is under way, a dead block has been emptied before its ops are looked at, and an op
has died before its regions are cleared. These are the exceptions that `Func.Tied` allows, and each
step of the erasure takes one of them back. An erasure gives nothing an owner (`Func.Wanes`), and it
never reaches the body: every region it clears belongs to an op.
-/

namespace Unnest

open Func

variable {f : Func} {X : OpId → Prop} {Y : RegionId → Prop}

namespace Func

/-- Nothing got an owner, or another one than it had. -/
structure Wanes (f f' : Func) : Prop where
  op (x : OpId) : f'.ownerOfOp x = f.ownerOfOp x ∨ f'.ownerOfOp x = none
  block (b : BlockId) : f'.ownerOfBlock b = f.ownerOfBlock b ∨ f'.ownerOfBlock b = none
  body : f'.body = f.body

theorem Wanes.refl (f : Func) : f.Wanes f := ⟨fun _ => .inl rfl, fun _ => .inl rfl, rfl⟩

theorem Wanes.trans {f₁ f₂ : Func} (h₁ : f.Wanes f₁) (h₂ : f₁.Wanes f₂) : f.Wanes f₂ where
  op x := by have := h₁.op x; have := h₂.op x; grind
  block b := by have := h₁.block b; have := h₂.block b; grind
  body := h₂.body.trans h₁.body

/-- An op that is not at the top level does not get there. -/
theorem Wanes.not_atTop {f' : Func} {x : OpId} (h : f.Wanes f') (hx : ¬ f.AtTop x) :
    ¬ f'.AtTop x := by
  rintro ⟨b, ho, hb⟩
  have := h.op x
  have := h.block b
  have := h.body
  exact hx ⟨b, by grind, by grind⟩

theorem Tied.imp {X' : OpId → Prop} {Y' : RegionId → Prop} (h : f.Tied X Y)
    (hX : ∀ x, X x ↔ X' x) (hY : ∀ r, Y r → Y' r) : f.Tied X' Y' where
  blocks := h.blocks
  blocksOnce := h.blocksOnce
  ops b x := by rw [h.ops b x, hX]
  opsOnce := h.opsOnce
  deadOp x d hd hl := (h.deadOp x d hd hl).imp_right fun hr r hm hn => hr r hm fun hy =>
    hn (hY r hy)
  deadBlock := h.deadBlock
  result := h.result
  arg := h.arg
  region := h.region
  body := h.body

/-- The regions of an op are not the body. -/
theorem Tied.region_ne_body {x : OpId} {d : Op} {r : RegionId} (h : f.Tied X Y)
    (hd : f.op? x = some d) (hr : r ∈ d.regions) : r ≠ f.body := by
  rintro rfl
  have := h.region x d _ hd hr
  have := h.body
  grind

end Func

namespace Edit

/-- What clearing a region that may be full although its op is dead comes to. -/
def Clears (clear : RegionId → Edit Unit) : Prop :=
  ∀ {I : Func → Prop} {f : Func} {X : OpId → Prop} {Y : RegionId → Prop} {r : RegionId},
    f.Tied X (fun q => Y q ∨ q = r) → r ≠ f.body →
      Keeps I (clear r) f fun _ f' => f'.Tied X Y ∧ f.Still f' ∧ f.Wanes f'

variable {I : Func → Prop} {clear : RegionId → Edit Unit}

/-- An op without an owner dies with all that is nested in it. -/
theorem killOp_keeps {op : OpId} (hc : Clears clear) (h : f.Tied X Y)
    (ho : f.ownerOfOp op = none) :
    Keeps I (killOp clear op) f fun _ f' => f'.Tied X Y ∧ f.Still f' ∧ f.Wanes f' := by
  refine .bind (m := fun _ f' => f' = f.atOp op fun d => { d with live := false })
    (.modifyOp fun _ _ => rfl) fun _ f₁ hf₁ => ?_
  refine .getOp fun d₁ hd₁ => ?_
  obtain ⟨d, hd, rfl⟩ : ∃ d, f.op? op = some d ∧ { d with live := false } = d₁ := by
    subst hf₁
    cases hd : f.op? op <;> grind
  have hp : d.parent = none := by grind
  have h₁ := h.killOp hd hp
  rw [← hf₁] at h₁
  have s₁ : f.Still f₁ := by
    subst hf₁
    exact ⟨rfl, fun b hb => hb, fun x => by grind, fun b hb _ => hb⟩
  have w₁ : f.Wanes f₁ := by
    subst hf₁
    exact ⟨fun x => by grind, fun b => .inl rfl, rfl⟩
  -- The regions that are still to be cleared are the exceptions left.
  refine (Keeps.forM (m := fun rest f' => f'.Tied X (fun q => Y q ∨ q ∈ rest) ∧
    (∀ q ∈ rest, q ≠ f'.body) ∧ f.Still f' ∧ f.Wanes f') ?_ ?_).mono ?_
  · exact ⟨h₁, fun q hq => h₁.region_ne_body hd₁ hq, s₁, w₁⟩
  · rintro r rest f₂ ⟨h₂, hb₂, s₂, w₂⟩
    have h₂' : f₂.Tied X fun q => (Y q ∨ q ∈ rest) ∨ q = r :=
      h₂.imp (fun _ => Iff.rfl) fun q hq => by grind
    refine (hc h₂' (hb₂ r (by simp))).mono ?_
    rintro _ f₃ ⟨h₃, s₃, w₃⟩
    refine ⟨h₃, fun q hq => ?_, s₂.trans s₃, w₂.trans w₃⟩
    rw [w₃.body]
    exact hb₂ q (by simp [hq])
  · rintro _ f' ⟨h', _, s', w'⟩
    exact ⟨h'.imp (fun _ => Iff.rfl) fun q hq => by simpa using hq, s', w'⟩

/-- A block without an owner dies with all that is nested in it. -/
theorem killBlock_keeps {b : BlockId} (hc : Clears clear) (h : f.Tied X Y)
    (hb : f.ownerOfBlock b = none) :
    Keeps I (killBlock clear b) f fun _ f' =>
      f'.Tied X Y ∧ f.Steady f' (· = b) (fun _ => False) ∧ f.Wanes f' := by
  refine .bind (m := fun _ f' => f' = f.atBlock b fun d => { d with live := false })
    (.modifyBlock fun _ _ => rfl) fun _ f₁ hf₁ => ?_
  refine .getBlock fun d₁ hd₁ => ?_
  obtain ⟨d, hd, rfl⟩ : ∃ d, f.block? b = some d ∧ { d with live := false } = d₁ := by
    subst hf₁
    cases hd : f.block? b <;> grind
  have hp : d.parent = none := by grind
  refine .bind (m := fun _ f' => f' = f₁.atBlock b fun d => { d with ops := [] })
    (.modifyBlock fun _ _ => rfl) fun _ f₂ hf₂ => ?_
  have h₂ := h.killBlock hd hp
  rw [← hf₁, ← hf₂] at h₂
  have s₂ : f.Steady f₂ (· = b) (fun _ => False) := by
    subst hf₂ hf₁
    exact ⟨rfl, fun c => by grind, fun x => by grind, fun c => by grind⟩
  have w₂ : f.Wanes f₂ := by
    subst hf₂ hf₁
    exact ⟨fun x => .inl rfl, fun c => by grind, rfl⟩
  have htop : ∀ x ∈ d.ops, ¬ f₂.AtTop x := fun x hx => by
    have := h.ops b x
    exact w₂.not_atTop (by grind)
  -- The ops that are still to be marked dead are the strays left.
  refine (Keeps.forM (m := fun rest f' => f'.Tied (fun x => X x ∨ x ∈ rest) Y ∧
    (∀ x ∈ rest, ¬ f'.AtTop x) ∧ f.Steady f' (· = b) (fun _ => False) ∧ f.Wanes f') ?_ ?_).mono ?_
  · exact ⟨h₂, htop, s₂, w₂⟩
  · rintro op rest f₃ ⟨h₃, ht₃, s₃, w₃⟩
    have h₃' : f₃.Tied (fun x => (X x ∨ x ∈ rest) ∨ x = op) Y :=
      h₃.imp (fun x => by grind) fun _ hq => hq
    refine .bind (m := fun _ f' => f' = f₃.atOp op fun d => { d with parent := none })
      (.modifyOp fun _ _ => rfl) fun _ f₄ hf₄ => ?_
    have h₄ := h₃'.forget fun c => by have := h₃'.ops c op; grind
    rw [← hf₄] at h₄
    have s₄ : f₃.Still f₄ := by
      have := ht₃ op (by simp)
      subst hf₄
      exact ⟨rfl, fun b hb => hb, fun x hx _ => by grind, fun b hb _ => hb⟩
    have w₄ : f₃.Wanes f₄ := by
      subst hf₄
      refine ⟨fun x => ?_, fun b => .inl rfl, rfl⟩
      cases hx : f₃.op? x <;> grind
    have ho₄ : f₄.ownerOfOp op = none := by
      subst hf₄
      cases hx : f₃.op? op <;> grind
    refine (killOp_keeps hc h₄ ho₄).mono ?_
    rintro _ f₅ ⟨h₅, s₅, w₅⟩
    exact ⟨h₅, fun x hx => w₅.not_atTop (w₄.not_atTop (ht₃ x (by simp [hx]))),
        s₃.trans_still (s₄.trans s₅), w₃.trans (w₄.trans w₅)⟩
  · rintro _ f' ⟨h', _, s', w'⟩
    exact ⟨h'.imp (fun x => by simp) fun _ hq => hq, s', w'⟩

/-- Blocks without an owner die one after another. -/
theorem killBlocks_keeps {l : List BlockId} (hc : Clears clear) (h : f.Tied X Y)
    (hl : ∀ b ∈ l, f.ownerOfBlock b = none) :
    Keeps I (l.forM (killBlock clear)) f fun _ f' =>
      f'.Tied X Y ∧ f.Steady f' (· ∈ l) (fun _ => False) ∧ f.Wanes f' := by
  induction l generalizing f with
  | nil => exact .pure ⟨h, ⟨rfl, fun _ hb => hb, fun _ hx _ => hx, fun _ hb _ => hb⟩, .refl f⟩
  | cons b l ih =>
    refine .bind (killBlock_keeps hc h (hl b (by simp))) ?_
    rintro _ f₁ ⟨h₁, s₁, w₁⟩
    refine (ih h₁ fun c hc => ?_).mono ?_
    · have := w₁.block c
      have := hl c (by simp [hc])
      grind
    · rintro _ f₂ ⟨h₂, s₂, w₂⟩
      refine ⟨h₂, ?_, w₁.trans w₂⟩
      refine ⟨s₂.body.trans s₁.body, fun c hc => ?_, fun x hx he => ?_, fun c hc hn => ?_⟩
      · rw [← s₁.body]
        exact s₂.top c (by rw [s₁.body]; exact s₁.top c hc)
      · exact s₂.atTop x (s₁.atTop x hx he) he
      · exact s₂.free c (s₁.free c hc (by simp_all)) (by simp_all)

theorem clears_clearTo (levels : Nat) : Clears (clearTo levels) := by
  induction levels with
  | zero => exact fun _ _ => .stop (by simp)
  | succ levels ih =>
    intro I f X Y r h hr
    refine .bind (takeRegion_eq r) ?_
    rintro l f₁ ⟨hl, hf₁⟩
    have h₁ : f₁.Tied X fun q => Y q ∨ q = r := hf₁ ▸ h.takeBlocks
    have hempty : f₁.blocksIn r = [] := by
      subst hf₁
      grind
    have howner : ∀ b, f₁.ownerOfBlock b = if b ∈ l then none else f.ownerOfBlock b := fun b => by
      subst hf₁ hl
      cases hb : f.block? b <;> grind
    have hfree : ∀ b, f.Free b → b ∉ l ∧ f₁.Free b := fun b hb => by
      have := h.blocks r b
      subst hf₁ hl
      grind
    have s₁ : f.Still f₁ := by
      refine ⟨by simp [hf₁], fun b hb => ?_, ?_, fun b hb _ => (hfree b hb).2⟩
      · have := h.blocks r b
        grind
      · rintro x ⟨b, ho, hb⟩ -
        have := h.blocks r b
        refine ⟨b, ?_, ?_⟩
        · subst hf₁
          grind
        · simp [hf₁]
          grind
    have w₁ : f.Wanes f₁ := by
      refine ⟨fun x => .inl (by subst hf₁; grind), fun b => ?_, by simp [hf₁]⟩
      have := howner b
      grind
    refine (killBlocks_keeps ih (h₁.emptied hempty) fun b hb => ?_).mono ?_
    · have := howner b
      grind
    · rintro _ f₂ ⟨h₂, s₂, w₂⟩
      have := s₁.trans s₂
      refine ⟨h₂, ?_, w₁.trans w₂⟩
      exact ⟨this.body, this.top, this.atTop, fun b hb _ => this.free b hb (hfree b hb).1⟩

theorem clears_clearRegion : Clears clearRegion := fun h hr => .get (clears_clearTo _ h hr)

theorem discardBlocks_keeps {l : List BlockId} (h : f.Sound)
    (hl : ∀ b ∈ l, f.ownerOfBlock b = none) :
    Keeps I (discardBlocks l) f fun _ f' =>
      f'.Sound ∧ f.Steady f' (· ∈ l) (fun _ => False) :=
  (killBlocks_keeps clears_clearRegion h hl).mono fun _ _ h => ⟨h.1, h.2.1⟩

theorem eraseOp_keeps (h : f.Sound) (op : OpId) :
    Keeps Sound (eraseOp op) f fun _ f' => f'.Sound ∧ f.Steady f' (fun _ => False) (· = op) := by
  refine .getOp fun d hd => ?_
  dsimp only
  split
  · refine .bind (detachOp_keeps h op) ?_
    rintro _ f₁ ⟨h₁, s₁, l₁⟩
    refine (killOp_keeps clears_clearRegion h₁ (by grind)).mono ?_
    rintro _ f₂ ⟨h₂, s₂, _⟩
    exact ⟨h₂, s₁.trans_still s₂⟩
  · rename_i hp
    refine (killOp_keeps clears_clearRegion h (by simpa [ownerOfOp, hd] using hp)).mono ?_
    rintro _ f₂ ⟨h₂, s₂, _⟩
    refine ⟨h₂, ?_⟩
    exact ⟨s₂.body, s₂.top, fun x hx _ => s₂.atTop x hx (by simp), s₂.free⟩

theorem eraseBlock_keeps (h : f.Sound) (b : BlockId) :
    Keeps Sound (eraseBlock b) f fun _ f' => f'.Sound := by
  refine .getBlock fun d hd => ?_
  dsimp only
  split
  · refine .placeOfBlock h fun r place rd ho hrd hp => ?_
    obtain ⟨hi, hx⟩ := List.getElem?_eq_some_iff.mp hp
    have hperm := List.getElem_cons_eraseIdx_perm hi
    rw [hx] at hperm
    have hn : (b :: rd.blocks.eraseIdx place).Nodup := by
      have := h.blocksOnce r
      rw [hperm.nodup_iff]
      grind
    refine .bind
      (m := fun _ f' => f' = f.atRegion r fun d => { d with blocks := d.blocks.eraseIdx place })
      (.modifyRegion fun _ _ => rfl) fun _ f₁ hf₁ => ?_
    refine .bind (m := fun _ f' => f' = f₁.atBlock b fun d => { d with parent := none })
      (.modifyBlock fun _ _ => rfl) fun _ f₂ hf₂ => ?_
    have h₂ : f₂.Sound := by
      subst hf₂ hf₁
      refine h.removeBlock ho hrd rfl (fun x => ?_) (List.nodup_cons.mp hn).2
      rw [← hperm.mem_iff, List.mem_cons]
      have := (List.nodup_cons.mp hn).1
      grind
    have ho₂ : f₂.ownerOfBlock b = none := by
      subst hf₂ hf₁
      grind
    exact (killBlock_keeps clears_clearRegion h₂ ho₂).mono fun _ _ h => h.1
  · rename_i hp
    exact (killBlock_keeps clears_clearRegion h (by simpa [ownerOfBlock, hd] using hp)).mono
      fun _ _ h => h.1

end Edit

end Unnest
