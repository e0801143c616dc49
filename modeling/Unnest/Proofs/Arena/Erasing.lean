import Unnest.Proofs.Arena.Placing
/-!
# Erasing nodes and renaming uses

An erased construct is marked dead and drops out of the entries. It is erased only after its
regions have been emptied, and blocks are discarded only if they hold nothing but the ends of
regions, so nothing nested is lost on the way. The ops of discarded blocks are still known, as dead
ones.
-/

namespace Unnest.Arena

variable {stop : Prop} {f : Func} {e : Entries}

/-- Clearing a region without blocks changes nothing. -/
theorem clearRegion {r : RegionId} {d : Region} (h : Arena f (.region r d + e))
    (hd : d.blocks = []) :
    Meets stop (Edit.clearRegion r) f fun _ f' => Arena f' (.region r d + e) ∧ f.Grows f' [] := by
  refine .get ?_
  unfold Edit.clearTo
  have h₀ := h.as (d := .region r d + ((([] : List (BlockId × Block)).map fun p =>
    .block p.1 p.2).sum + e)) (by simp)
  refine .bind (takeRegion [] (by simpa using hd) h₀) ?_
  rintro a f₁ ⟨ha, h₁, g₁⟩
  rw [ha]
  refine .pure ⟨h₁.as ?_, g₁⟩
  cases d
  simp_all

theorem clearRegions (regs : List (RegionId × Region)) (hb : ∀ p ∈ regs, p.2.blocks = [])
    (h : Arena f ((regs.map fun p => .region p.1 p.2).sum + e)) :
    Meets stop ((regs.map Prod.fst).forM Edit.clearRegion) f fun _ f' =>
      Arena f' e ∧ f.Grows f' [] := by
  induction regs generalizing f with
  | nil => exact .pure ⟨h.as (by simp), .refl f⟩
  | cons p regs ih =>
    simp only [List.map_cons, List.sum_cons, add_assoc] at h ⊢
    refine .bind (h.clearRegion (hb p (by simp))) ?_
    rintro _ f₁ ⟨h₁, g₁⟩
    refine (ih (fun q hq => hb q (by simp [hq])) h₁.right).mono ?_
    rintro _ f₂ ⟨h₂, g₂⟩
    exact ⟨h₂, by simpa using g₁.trans g₂⟩

/-- Marking an op dead whose regions are empty. -/
theorem killOp {id : OpId} {d : Op} (regs : List (RegionId × Region))
    (hr : d.regions = regs.map Prod.fst) (hb : ∀ p ∈ regs, p.2.blocks = [])
    (h : Arena f (.op id d + ((regs.map fun p => .region p.1 p.2).sum + e))) :
    Meets stop (Edit.killOp Edit.clearRegion id) f fun _ f' =>
      Arena f' (.op id { d with live := false } + e) ∧ f.Grows f' [] := by
  refine .bind (h.modifyOp rfl) ?_
  rintro _ f₁ ⟨h₁, g₁⟩
  refine .step h₁.getOp ?_
  have hclear : Meets stop _ f₁ _ := clearRegions regs hb (h₁.as (add_left_comm _ _ _))
  rw [← hr] at hclear
  refine hclear.mono ?_
  rintro _ f₂ ⟨h₂, g₂⟩
  exact ⟨h₂, by simpa using g₁.trans g₂⟩

theorem eraseOp {anchor : OpId} {ad : Op} {b : BlockId} {blk : Block} {pre post : List OpId}
    (regs : List (RegionId × Region)) (hr : ad.regions = regs.map Prod.fst)
    (hrb : ∀ p ∈ regs, p.2.blocks = [])
    (h : Arena f (.op anchor ad + (.block b blk + ((regs.map fun p => .region p.1 p.2).sum + e))))
    (ha : ad.parent = some b) (hb : blk.ops = pre ++ anchor :: post) (hn : anchor ∉ pre) :
    Meets stop (Edit.eraseOp anchor) f fun _ f' =>
      Arena f' (.block b { blk with ops := pre ++ post } + e) ∧ f.Grows f' [] := by
  refine .step h.getOp ?_
  simp only [ha, Option.isSome_some, if_true]
  refine .bind (h.detachOp ha hb hn) ?_
  rintro _ f₁ ⟨h₁, g₁⟩
  have h₁' := h₁.as (d := .op anchor { ad with parent := none } +
    ((regs.map fun p => .region p.1 p.2).sum + (.block b { blk with ops := pre ++ post } + e)))
    (by abel)
  refine (killOp (d := { ad with parent := none }) regs hr hrb h₁').mono ?_
  rintro _ f₂ ⟨h₂, g₂⟩
  exact ⟨h₂.right, by simpa using g₁.trans g₂⟩

/-- Marking ops dead that have no regions. -/
theorem killOps (ops : List (OpId × Op)) (ho : ∀ p ∈ ops, p.2.regions = [])
    (h : Arena f ((ops.map fun p => .op p.1 p.2).sum + e)) :
    Meets stop ((ops.map Prod.fst).forM fun op => do
      Edit.setOpParent op none
      Edit.killOp Edit.clearRegion op) f fun _ f' =>
        Arena f' ((ops.map fun p => .op p.1 { p.2 with parent := none, live := false }).sum + e) ∧
          f.Grows f' [] := by
  induction ops generalizing f e with
  | nil => exact .pure ⟨h.as (by simp), .refl f⟩
  | cons p ops ih =>
    simp only [List.map_cons, List.sum_cons, add_assoc] at h ⊢
    refine .bind (m := fun _ f' => Arena f' (.op p.1 { p.2 with parent := none, live := false } +
      ((ops.map fun p => .op p.1 p.2).sum + e)) ∧ f.Grows f' []) (.bind (h.modifyOp rfl) ?_) ?_
    · rintro _ f₁ ⟨h₁, g₁⟩
      have h₁' := h₁.as (d := .op p.1 { p.2 with parent := none } +
        ((([] : List (RegionId × Region)).map fun p => .region p.1 p.2).sum +
          ((ops.map fun p => .op p.1 p.2).sum + e))) (by simp)
      refine (killOp (d := { p.2 with parent := none }) [] (by simpa using ho p (by simp)) (by simp)
        h₁').mono ?_
      rintro _ f₂ ⟨h₂, g₂⟩
      exact ⟨h₂, by simpa using g₁.trans g₂⟩
    · rintro _ f₂ ⟨h₂, g₂⟩
      refine (ih (fun q hq => ho q (by simp [hq])) (h₂.as (add_left_comm _ _ _))).mono ?_
      rintro _ f₃ ⟨h₃, g₃⟩
      exact ⟨h₃.as (add_left_comm _ _ _), by simpa using g₂.trans g₃⟩

/-- Marking a block dead whose ops have no regions. -/
theorem killBlock {b : BlockId} {blk : Block} (ops : List (OpId × Op))
    (hb : blk.ops = ops.map Prod.fst) (ho : ∀ p ∈ ops, p.2.regions = [])
    (h : Arena f (.block b blk + ((ops.map fun p => .op p.1 p.2).sum + e))) :
    Meets stop (Edit.killBlock Edit.clearRegion b) f fun _ f' =>
      Arena f' ((ops.map fun p => .op p.1 { p.2 with parent := none, live := false }).sum + e) ∧
        f.Grows f' [] := by
  refine .bind (h.modifyBlock rfl) ?_
  rintro _ f₁ ⟨h₁, g₁⟩
  refine .step h₁.getBlock ?_
  simp only [hb]
  refine .bind (h₁.modifyBlock rfl) ?_
  rintro _ f₂ ⟨h₂, g₂⟩
  refine (killOps ops ho h₂.right).mono ?_
  rintro _ f₃ ⟨h₃, g₃⟩
  exact ⟨h₃, by simpa using (g₁.trans g₂).trans g₃⟩

end Unnest.Arena

namespace Unnest

/-- Entries with every op changed. -/
def Entries.mapOps (g : Op → Op) (e : Entries) : Entries :=
  (e.1.map fun p => (p.1, g p.2), e.2)

/-- A live op with `new` for `old` among its operands. -/
def Op.replaceUse (old new : ValueId) (d : Op) : Op :=
  if d.live then { d with operands := d.operands.map fun v => if v = old then new else v } else d

theorem Arena.replaceAllUses {stop : Prop} {f : Func} {e : Entries} {old new : ValueId}
    (h : Arena f e) :
    Meets stop (Edit.replaceAllUses old new) f fun _ f' =>
      Arena f' (e.mapOps (Op.replaceUse old new)) ∧ f.Grows f' [] := by
  refine .of_ok (a := ()) rfl ⟨⟨⟨?_, ?_⟩, h.blocks, h.regions, h.values⟩,
    rfl, rfl, rfl, by simp, by simp⟩
  · intro q hq
    obtain ⟨p, hp, rfl⟩ := Multiset.mem_map.mp hq
    have hf := h.ops.holds p hp
    simp only at hf ⊢
    simp [Array.getElem?_map, hf, Op.replaceUse]
  · have := h.ops.nodup
    simpa [Entries.mapOps, Multiset.map_map] using this

end Unnest
