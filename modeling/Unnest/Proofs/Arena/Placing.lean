import Unnest.Proofs.Arena.Edits
/-!
# Moving blocks and placing ops

The edits that a lowering is written in: blocks are taken out of a region and put before another
block, new ops are put before, behind or at the end, and a block is split behind an op. The lists
of the owners and the owners noted at the nodes change together.
-/

namespace Unnest.Arena

variable {stop : Prop} {f : Func} {e : Entries}

variable {r : RegionId} {reg : Region}

theorem spliceBefore {anchor : BlockId} {ad : Block} {pre post : List BlockId}
    (l : List (BlockId × Block)) (hl : ∀ p ∈ l, p.2.parent = none)
    (h : Arena f (.block anchor ad + (.region r reg + ((l.map fun p => .block p.1 p.2).sum + e))))
    (ha : ad.parent = some r) (hr : reg.blocks = pre ++ anchor :: post) (hn : anchor ∉ pre) :
    Meets stop (Edit.spliceBefore anchor (l.map Prod.fst)) f fun _ f' =>
      Arena f' (.block anchor ad +
        (.region r { reg with blocks := pre ++ l.map Prod.fst ++ anchor :: post } +
          ((l.map fun p => .block p.1 { p.2 with parent := some r }).sum + e))) ∧
        f.Grows f' [] := by
  refine .step (h.placeOfBlock ha hr hn) ?_
  have h₀ := h.as (d := (l.map fun p => .block p.1 p.2).sum +
    (.region r reg + (.block anchor ad + e))) (by abel)
  refine .bind (h₀.claimBlocks l hl) ?_
  rintro _ f₁ ⟨h₁, g₁⟩
  refine ((h₁.as (add_left_comm _ _ _)).modifyRegion).mono ?_
  rintro _ f₂ ⟨h₂, g₂⟩
  refine ⟨h₂.as ?_, by simpa using g₁.trans g₂⟩
  simp only [hr, List.take_left', List.drop_left']
  abel

theorem takeRegion (l : List (BlockId × Block)) (hr : reg.blocks = l.map Prod.fst)
    (h : Arena f (.region r reg + ((l.map fun p => .block p.1 p.2).sum + e))) :
    Meets stop (Edit.takeRegion r) f fun a f' => a = l.map Prod.fst ∧
      Arena f' (.region r { reg with blocks := [] } +
        ((l.map fun p => .block p.1 { p.2 with parent := none }).sum + e)) ∧ f.Grows f' [] := by
  unfold Edit.takeRegion
  refine .step h.getRegion ?_
  refine .bind h.modifyRegion ?_
  rintro _ f₁ ⟨h₁, g₁⟩
  rw [hr]
  refine .bind (setBlockParents l (h₁.as (add_left_comm _ _ _))) ?_
  rintro _ f₂ ⟨h₂, g₂⟩
  exact .pure ⟨rfl, h₂.as (add_left_comm _ _ _), by simpa using g₁.trans g₂⟩

/-! ## Ops -/

variable {id : OpId} {d : Op} {b : BlockId} {blk : Block}

theorem appendOp (h : Arena f (.op id d + (.block b blk + e))) :
    Meets stop (Edit.appendOp b id) f fun _ f' =>
      Arena f' (.op id { d with parent := some b } +
        (.block b { blk with ops := blk.ops ++ [id] } + e)) ∧ f.Grows f' [] := by
  refine .bind (h.modifyOp rfl) ?_
  rintro _ f₁ ⟨h₁, g₁⟩
  refine ((h₁.as (add_left_comm _ _ _)).modifyBlock rfl).mono ?_
  rintro _ f₂ ⟨h₂, g₂⟩
  exact ⟨h₂.as (add_left_comm _ _ _), by simpa using g₁.trans g₂⟩

theorem insertOpAtStart (h : Arena f (.op id d + (.block b blk + e))) :
    Meets stop (Edit.insertOpAtStart b id) f fun _ f' =>
      Arena f' (.op id { d with parent := some b } +
        (.block b { blk with ops := id :: blk.ops } + e)) ∧ f.Grows f' [] := by
  refine .bind (h.modifyOp rfl) ?_
  rintro _ f₁ ⟨h₁, g₁⟩
  refine ((h₁.as (add_left_comm _ _ _)).modifyBlock rfl).mono ?_
  rintro _ f₂ ⟨h₂, g₂⟩
  exact ⟨h₂.as (add_left_comm _ _ _), by simpa using g₁.trans g₂⟩

section AtAnchor

variable {anchor : OpId} {ad : Op} {b : BlockId} {blk : Block} {pre post : List OpId}

variable {id : OpId} {d : Op}

theorem insertOpBefore (h : Arena f (.op anchor ad + (.block b blk + (.op id d + e))))
    (ha : ad.parent = some b) (hb : blk.ops = pre ++ anchor :: post) (hn : anchor ∉ pre) :
    Meets stop (Edit.insertOpBefore anchor id) f fun _ f' =>
      Arena f' (.op anchor ad + (.block b { blk with ops := pre ++ id :: anchor :: post } +
        (.op id { d with parent := some b } + e))) ∧ f.Grows f' [] := by
  refine .step (h.placeOfOp ha hb hn) ?_
  have h₀ := h.as (d := .op id d + (.block b blk + (.op anchor ad + e))) (by abel)
  refine .bind (h₀.modifyOp rfl) ?_
  rintro _ f₁ ⟨h₁, g₁⟩
  refine ((h₁.as (add_left_comm _ _ _)).modifyBlock rfl).mono ?_
  rintro _ f₂ ⟨h₂, g₂⟩
  refine ⟨h₂.as ?_, by simpa using g₁.trans g₂⟩
  rw [hb, insertIdx_append]
  abel

theorem insertOpAfter (h : Arena f (.op anchor ad + (.block b blk + (.op id d + e))))
    (ha : ad.parent = some b) (hb : blk.ops = pre ++ anchor :: post) (hn : anchor ∉ pre) :
    Meets stop (Edit.insertOpAfter anchor id) f fun _ f' =>
      Arena f' (.op anchor ad + (.block b { blk with ops := pre ++ anchor :: id :: post } +
        (.op id { d with parent := some b } + e))) ∧ f.Grows f' [] := by
  refine .step (h.placeOfOp ha hb hn) ?_
  have h₀ := h.as (d := .op id d + (.block b blk + (.op anchor ad + e))) (by abel)
  refine .bind (h₀.modifyOp rfl) ?_
  rintro _ f₁ ⟨h₁, g₁⟩
  refine ((h₁.as (add_left_comm _ _ _)).modifyBlock rfl).mono ?_
  rintro _ f₂ ⟨h₂, g₂⟩
  refine ⟨h₂.as ?_, by simpa using g₁.trans g₂⟩
  rw [hb, insertIdx_append_cons]
  abel

theorem detachOp (h : Arena f (.op anchor ad + (.block b blk + e))) (ha : ad.parent = some b)
    (hb : blk.ops = pre ++ anchor :: post) (hn : anchor ∉ pre) :
    Meets stop (Edit.detachOp anchor) f fun _ f' =>
      Arena f' (.op anchor { ad with parent := none } +
        (.block b { blk with ops := pre ++ post } + e)) ∧ f.Grows f' [] := by
  refine .step (h.placeOfOp ha hb hn) ?_
  refine .bind ((h.as (add_left_comm _ _ _)).modifyBlock rfl) ?_
  rintro _ f₁ ⟨h₁, g₁⟩
  refine ((h₁.as (add_left_comm _ _ _)).modifyOp rfl).mono ?_
  rintro _ f₂ ⟨h₂, g₂⟩
  refine ⟨h₂.as ?_, by simpa using g₁.trans g₂⟩
  rw [hb, List.eraseIdx_append_of_length_le (le_refl _)]
  simp

variable {kind : OpKind} {operands : List ValueId} {resultTys : List Ty}

theorem emitBefore_entry (h : Arena f (.op anchor ad + (.block b blk + e)))
    (ha : ad.parent = some b) (hb : blk.ops = pre ++ anchor :: post) (hn : anchor ∉ pre) :
    Meets stop (Edit.emitBefore anchor kind operands resultTys) f fun id f' =>
      Arena f' (.op anchor ad + (.block b { blk with ops := pre ++ id :: anchor :: post } +
        (.op id ⟨kind, operands, f.freshValues resultTys.length, [], some b, ad.span, true⟩ + e))) ∧
        f.Grows f' (resultTys.zipIdx.map fun p => ⟨p.1, .opResult id p.2⟩) := by
  refine .bind h.createOp ?_
  rintro id f₁ ⟨h₁, g₁⟩
  have h₁' := h₁.as (d := .op anchor ad + (.block b blk + (.op id _ + e)))
    (by simp only [Func.freshRegions_zero, List.map_nil, List.sum_nil]; abel)
  refine .step h₁'.getOp ?_
  have h₁'' := h₁'.as (d := .op id _ + (.op anchor ad + (.block b blk + e))) (by abel)
  refine .bind (h₁''.modifyOp rfl) ?_
  rintro _ f₂ ⟨h₂, g₂⟩
  have h₂' := h₂.as (d := .op anchor ad + (.block b blk + (.op id _ + e))) (by abel)
  refine .bind (h₂'.insertOpBefore ha hb hn) ?_
  rintro _ f₃ ⟨h₃, g₃⟩
  exact .pure ⟨h₃, by simpa using (g₁.trans g₂).trans g₃⟩

theorem emitAfter_entry (h : Arena f (.op anchor ad + (.block b blk + e))) (ha : ad.parent = some b)
    (hb : blk.ops = pre ++ anchor :: post) (hn : anchor ∉ pre) :
    Meets stop (Edit.emitAfter anchor kind operands resultTys) f fun id f' =>
      Arena f' (.op anchor ad + (.block b { blk with ops := pre ++ anchor :: id :: post } +
        (.op id ⟨kind, operands, f.freshValues resultTys.length, [], some b, ad.span, true⟩ + e))) ∧
        f.Grows f' (resultTys.zipIdx.map fun p => ⟨p.1, .opResult id p.2⟩) := by
  refine .bind h.createOp ?_
  rintro id f₁ ⟨h₁, g₁⟩
  have h₁' := h₁.as (d := .op anchor ad + (.block b blk + (.op id _ + e)))
    (by simp only [Func.freshRegions_zero, List.map_nil, List.sum_nil]; abel)
  refine .step h₁'.getOp ?_
  have h₁'' := h₁'.as (d := .op id _ + (.op anchor ad + (.block b blk + e))) (by abel)
  refine .bind (h₁''.modifyOp rfl) ?_
  rintro _ f₂ ⟨h₂, g₂⟩
  have h₂' := h₂.as (d := .op anchor ad + (.block b blk + (.op id _ + e))) (by abel)
  refine .bind (h₂'.insertOpAfter ha hb hn) ?_
  rintro _ f₃ ⟨h₃, g₃⟩
  exact .pure ⟨h₃, by simpa using (g₁.trans g₂).trans g₃⟩

theorem splitAfter_entry {r : RegionId} {reg : Region} {l₁ l₂ : List BlockId}
    (tail : List (OpId × Op))
    (h : Arena f (.op anchor ad + (.block b blk +
      (.region r reg + ((tail.map fun p => .op p.1 p.2).sum + e)))))
    (ha : ad.parent = some b) (hb : blk.ops = pre ++ anchor :: tail.map Prod.fst)
    (hn : anchor ∉ pre) (hp : blk.parent = some r) (hr : reg.blocks = l₁ ++ b :: l₂)
    (hl : b ∉ l₁) :
    Meets stop (Edit.splitAfter anchor) f fun fresh f' =>
      Arena f' (.op anchor ad + (.block b { blk with ops := pre ++ [anchor] } +
        (.region r { reg with blocks := l₁ ++ b :: fresh :: l₂ } +
          ((tail.map fun p => .op p.1 { p.2 with parent := some fresh }).sum +
            (.block fresh ⟨tail.map Prod.fst, [], some r, true⟩ + e))))) ∧ f.Grows f' [] := by
  refine .step (h.placeOfOp ha hb hn) ?_
  refine .step h.right.getBlock ?_
  have hcut : pre ++ anchor :: tail.map Prod.fst = (pre ++ [anchor]) ++ tail.map Prod.fst := by
    simp
  have htail : (pre ++ anchor :: tail.map Prod.fst).drop (pre.length + 1) = tail.map Prod.fst := by
    rw [hcut, List.drop_left' (by simp)]
  have hinit : (pre ++ anchor :: tail.map Prod.fst).take (pre.length + 1) = pre ++ [anchor] := by
    rw [hcut, List.take_left' (by simp)]
  simp only [hb, htail]
  refine .bind ((h.as (add_left_comm _ _ _)).modifyBlock rfl) ?_
  rintro _ f₁ ⟨h₁, g₁⟩
  simp only [hb, hinit] at h₁
  refine .bind h₁.newBlock ?_
  rintro fresh f₂ ⟨h₂, g₂⟩
  simp only [List.length_nil, Func.freshValues_zero] at h₂
  have h₂' := h₂.as (d := (tail.map fun p => .op p.1 p.2).sum + (.block fresh _ +
    (.op anchor ad + (.block b { blk with ops := pre ++ [anchor] } + (.region r reg + e)))))
    (by abel)
  refine .bind (setOpParents tail h₂') ?_
  rintro _ f₃ ⟨h₃, g₃⟩
  refine .bind ((h₃.as (add_left_comm _ _ _)).modifyBlock rfl) ?_
  rintro _ f₄ ⟨h₄, g₄⟩
  have h₄' := h₄.as (d := .block b { blk with ops := pre ++ [anchor] } + (.region r reg +
    (.block fresh _ + (.op anchor ad + ((tail.map fun p =>
      .op p.1 { p.2 with parent := some fresh }).sum + e))))) (by abel)
  refine .bind (h₄'.insertBlockAfter hp hr hl) ?_
  rintro _ f₅ ⟨h₅, g₅⟩
  refine .pure ⟨h₅.as ?_, ?_⟩
  · abel
  · simpa using (((g₁.trans g₂).trans g₃).trans g₄).trans g₅

end AtAnchor

theorem emitAtEnd_entry {kind : OpKind} {operands : List ValueId} {resultTys : List Ty}
    (h : Arena f (.block b blk + e)) :
    Meets stop (Edit.emitAtEnd b kind operands resultTys) f fun id f' =>
      Arena f' (.block b { blk with ops := blk.ops ++ [id] } +
        (.op id ⟨kind, operands, f.freshValues resultTys.length, [], some b, none, true⟩ + e)) ∧
        f.Grows f' (resultTys.zipIdx.map fun p => ⟨p.1, .opResult id p.2⟩) := by
  refine .bind h.createOp ?_
  rintro id f₁ ⟨h₁, g₁⟩
  have h₁' := h₁.as (d := .op id _ + (.block b blk + e))
    (by simp only [Func.freshRegions_zero, List.map_nil, List.sum_nil]; abel)
  refine .bind h₁'.appendOp ?_
  rintro _ f₂ ⟨h₂, g₂⟩
  exact .pure ⟨h₂.as (add_left_comm _ _ _), by simpa using g₁.trans g₂⟩

end Unnest.Arena
