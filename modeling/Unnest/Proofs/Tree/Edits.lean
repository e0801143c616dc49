import Unnest.Proofs.Arena.Erasing
import Unnest.Proofs.Tree.Basic
/-!
# Editing the tree

The primitive edits as edits of the tree that the tables hold. The first half is about ops of
blocks wherever the blocks are, in the body or without an owner; the second about the blocks of the
body.
-/

namespace Unnest

/-- The ops of blocks that have been discarded. -/
def deadOps (blocks : List BlockTree) : Entries :=
  (blocks.flatMap fun B => B.ops.map fun n =>
    Entries.op n.id { n.toOp B.id with parent := none, live := false }).sum

/-! ## Ops in their blocks -/

namespace Arena

variable {stop : Prop} {f : Func} {e : Entries} {r : Option RegionId} {L R : List BlockTree}
  {b : BlockId} {args : List ValueId} {pre post : List OpTree} {x : OpTree}

variable {B : BlockTree}

/-- The entries around one block. -/
theorem at_block (h : Arena f (layout r (L ++ B :: R) + e)) : Arena f (.block B.id (B.toBlock r) +
      (nodes B.id B.ops + (layout r L + (layout r R + e)))) := by
  refine h.as ?_
  simp only [layout_append, layout_cons, BlockOf.entries_eq]
  abel

theorem of_block (h : Arena f (.block B.id (B.toBlock r) +
      (nodes B.id B.ops + (layout r L + (layout r R + e))))) :
    Arena f (layout r (L ++ B :: R) + e) := by
  refine h.as ?_
  simp only [layout_append, layout_cons, BlockOf.entries_eq]
  abel

/-- The entries around one op. -/
theorem at_op (h : Arena f (layout r (L ++ ⟨b, args, pre ++ x :: post⟩ :: R) + e)) :
    Arena f (.op x.id (x.toOp b) +
      (.block b (BlockOf.toBlock ⟨b, args, pre ++ x :: post⟩ r) +
        (x.inner + (nodes b pre + nodes b post + (layout r L + (layout r R + e)))))) := by
  refine h.at_block.as ?_
  simp only [nodes_append, nodes_cons, OpTree.entries_eq]
  abel

theorem of_op (h : Arena f (.op x.id (x.toOp b) +
      (.block b (BlockOf.toBlock ⟨b, args, pre ++ x :: post⟩ r) +
        (x.inner + (nodes b pre + nodes b post + (layout r L + (layout r R + e))))))) :
    Arena f (layout r (L ++ ⟨b, args, pre ++ x :: post⟩ :: R) + e) := by
  refine of_block (h.as ?_)
  simp only [nodes_append, nodes_cons, OpTree.entries_eq]
  abel

/-- An op occurs once in its block. -/
theorem op_notMem_others (h : Arena f (layout r (L ++ ⟨b, args, pre ++ x :: post⟩ :: R) + e)) :
    x.id ∉ pre.map (·.id) ++ post.map (·.id) := by
  have := h.at_block.right.left.nodup_nodes
  rw [List.map_append, List.map_cons, List.nodup_middle] at this
  exact (List.nodup_cons.mp this).1

theorem op_notMem (h : Arena f (layout r (L ++ ⟨b, args, pre ++ x :: post⟩ :: R) + e)) :
    x.id ∉ pre.map (·.id) := fun hm => h.op_notMem_others (List.mem_append_left _ hm)

theorem block_notMem (h : Arena f (layout r (L ++ B :: R) + e)) : B.id ∉ L.map (·.id) := by
  have := h.left.nodup_layout
  rw [List.map_append, List.map_cons, List.nodup_middle] at this
  exact fun hm => (List.nodup_cons.mp this).1 (by simp [List.mem_append, List.mem_map.mp hm])

/-- An op is changed in place; it keeps its results and regions. -/
theorem modifyHead {g : Op → Op} (h' : Head)
    (h : Arena f (layout r (L ++ ⟨b, args, pre ++ x :: post⟩ :: R) + e))
    (hid : h'.id = x.id) (hr : h'.results = x.head.results)
    (hg : g (x.toOp b) = (OpTree.mk h' x.regions).toOp b) :
    Meets stop (Edit.modifyOp x.id g) f fun _ f' =>
      Arena f' (layout r (L ++ ⟨b, args, pre ++ .mk h' x.regions :: post⟩ :: R) + e) ∧
        f.Grows f' [] := by
  refine (h.at_op.modifyOp (by rw [hg]; exact hr)).mono ?_
  rintro _ f' ⟨h₁, g₁⟩
  refine ⟨of_op ?_, g₁⟩
  have hb : BlockOf.toBlock ⟨b, args, pre ++ .mk h' x.regions :: post⟩ r =
      BlockOf.toBlock ⟨b, args, pre ++ x :: post⟩ r := by
    simp [BlockOf.toBlock, hid]
  have hi : (OpTree.mk h' x.regions).inner = x.inner := by
    simp [OpTree.inner, hid]
  rw [hb, hi, ← hg]
  simpa [hid] using h₁

variable {kind : OpKind} {operands : List ValueId} {resultTys : List Ty}

theorem emitBefore (h : Arena f (layout r (L ++ ⟨b, args, pre ++ x :: post⟩ :: R) + e)) :
    Meets stop (Edit.emitBefore x.id kind operands resultTys) f fun id f' =>
      Arena f' (layout r (L ++ ⟨b, args, pre ++ .leaf ⟨id, kind, operands,
        f.freshValues resultTys.length, x.head.span⟩ :: x :: post⟩ :: R) + e) ∧
        f.Grows f' (resultTys.zipIdx.map fun p => ⟨p.1, .opResult id p.2⟩) := by
  have hb : (BlockOf.toBlock ⟨b, args, pre ++ x :: post⟩ r).ops =
      pre.map (·.id) ++ x.id :: post.map (·.id) := by simp [BlockOf.toBlock]
  refine (h.at_op.emitBefore_entry rfl hb h.op_notMem).mono ?_
  rintro id f' ⟨h₁, g₁⟩
  refine ⟨h₁.as ?_, g₁⟩
  simp only [layout_append, layout_cons, BlockOf.entries_eq, nodes_append, nodes_cons,
    OpTree.entries_eq, BlockOf.toBlock, OpTree.toOp, List.map_append, List.map_cons,
    OpTree.inner_leaf, OpTree.head_leaf, OpTree.regions_leaf, OpTree.id_leaf, OpTree.kind_leaf,
    List.map_nil]
  abel

theorem emitAfter (h : Arena f (layout r (L ++ ⟨b, args, pre ++ x :: post⟩ :: R) + e)) :
    Meets stop (Edit.emitAfter x.id kind operands resultTys) f fun id f' =>
      Arena f' (layout r (L ++ ⟨b, args, pre ++ x :: .leaf ⟨id, kind, operands,
        f.freshValues resultTys.length, x.head.span⟩ :: post⟩ :: R) + e) ∧
        f.Grows f' (resultTys.zipIdx.map fun p => ⟨p.1, .opResult id p.2⟩) := by
  have hb : (BlockOf.toBlock ⟨b, args, pre ++ x :: post⟩ r).ops =
      pre.map (·.id) ++ x.id :: post.map (·.id) := by simp [BlockOf.toBlock]
  refine (h.at_op.emitAfter_entry rfl hb h.op_notMem).mono ?_
  rintro id f' ⟨h₁, g₁⟩
  refine ⟨h₁.as ?_, g₁⟩
  simp only [layout_append, layout_cons, BlockOf.entries_eq, nodes_append, nodes_cons,
    OpTree.entries_eq, BlockOf.toBlock, OpTree.toOp, List.map_append, List.map_cons,
    OpTree.inner_leaf, OpTree.head_leaf, OpTree.regions_leaf, OpTree.id_leaf, OpTree.kind_leaf,
    List.map_nil]
  abel

theorem emitAtEnd (h : Arena f (layout r (L ++ ⟨b, args, pre⟩ :: R) + e)) :
    Meets stop (Edit.emitAtEnd b kind operands resultTys) f fun id f' =>
      Arena f' (layout r (L ++ ⟨b, args, pre ++ [.leaf ⟨id, kind, operands,
        f.freshValues resultTys.length, none⟩]⟩ :: R) + e) ∧
        f.Grows f' (resultTys.zipIdx.map fun p => ⟨p.1, .opResult id p.2⟩) := by
  refine h.at_block.emitAtEnd_entry.mono ?_
  rintro id f' ⟨h₁, g₁⟩
  refine ⟨h₁.as ?_, g₁⟩
  simp only [layout_append, layout_cons, BlockOf.entries_eq, nodes_append, nodes_cons, nodes_nil,
    OpTree.entries_eq, BlockOf.toBlock, OpTree.toOp, List.map_append, List.map_cons,
    OpTree.inner_leaf, OpTree.head_leaf, OpTree.regions_leaf, OpTree.id_leaf, OpTree.kind_leaf,
    List.map_nil]
  abel

/-- An op whose regions are empty is erased. -/
theorem eraseNode (h : Arena f (layout r (L ++ ⟨b, args, pre ++ x :: post⟩ :: R) + e))
    (hx : ∀ r ∈ x.regions, r.blocks = []) :
    Meets stop (Edit.eraseOp x.id) f fun _ f' =>
      Arena f' (layout r (L ++ ⟨b, args, pre ++ post⟩ :: R) + e) ∧ f.Grows f' [] := by
  have hi : x.inner = ((x.regions.map fun r => (r.id, r.toRegion (some x.id))).map fun p =>
      .region p.1 p.2).sum := by
    rw [OpTree.inner, List.map_map]
    refine congrArg List.sum (List.map_congr_left fun r hr => ?_)
    rw [RegionOf.entries_eq, hx r hr]
    simp
  have h₀ := h.at_op
  rw [hi] at h₀
  have hb : (BlockOf.toBlock ⟨b, args, pre ++ x :: post⟩ r).ops =
      pre.map (·.id) ++ x.id :: post.map (·.id) := by simp [BlockOf.toBlock]
  refine (eraseOp _ (by simp [OpTree.toOp, Function.comp_def]) ?_ h₀ rfl hb h.op_notMem).mono ?_
  · intro p hp
    obtain ⟨r, hr, rfl⟩ := List.mem_map.mp hp
    simp [RegionOf.toRegion, hx r hr]
  · rintro _ f' ⟨h₁, g₁⟩
    refine ⟨h₁.as ?_, g₁⟩
    simp only [layout_append, layout_cons, BlockOf.entries_eq, nodes_append, BlockOf.toBlock,
      List.map_append]
    abel

/-- The blocks of one region of an op are taken out. -/
theorem takeNode {h' : Head} {rs₁ rs₂ : List RegionTree} {q : RegionId} {blocks : List BlockTree}
    (h : Arena f (layout r (L ++
        ⟨b, args, pre ++ .mk h' (rs₁ ++ ⟨q, blocks⟩ :: rs₂) :: post⟩ :: R) +
      e)) :
    Meets stop (Edit.takeRegion q) f fun a f' => a = blocks.map (·.id) ∧
      Arena f' (layout r (L ++ ⟨b, args, pre ++ .mk h' (rs₁ ++ ⟨q, []⟩ :: rs₂) :: post⟩ :: R) +
        (layout none blocks + e)) ∧ f.Grows f' [] := by
  have h₀ := h.at_op.as (d := .region q ⟨blocks.map (·.id), some h'.id⟩ +
    (((blocks.map fun b => (b.id, b.toBlock (some q))).map fun p => .block p.1 p.2).sum +
      ((blocks.map fun b => nodes b.id b.ops).sum +
        (.op h'.id ((OpTree.mk h' (rs₁ ++ ⟨q, blocks⟩ :: rs₂)).toOp b) +
          (.block b (BlockOf.toBlock
          ⟨b, args, pre ++ .mk h' (rs₁ ++ ⟨q, blocks⟩ :: rs₂) :: post⟩ r) +
            ((rs₁.map (RegionOf.entries (some h'.id))).sum +
              (rs₂.map (RegionOf.entries (some h'.id))).sum + (nodes b pre + nodes b post +
                (layout r L + (layout r R + e)))))))))
    (by
      simp only [OpTree.inner, OpTree.regions_mk, OpTree.id_mk, List.map_append, List.map_cons,
        List.sum_append, List.sum_cons, RegionOf.entries_eq, layout_eq (some q), List.map_map,
        Function.comp_def, RegionOf.toRegion]
      abel)
  refine (takeRegion _ (by simp [Function.comp_def]) h₀).mono ?_
  rintro a f' ⟨ha, h₁, g₁⟩
  refine ⟨by simpa [Function.comp_def] using ha, h₁.as ?_, g₁⟩
  simp only [layout_append, layout_cons, BlockOf.entries_eq, nodes_append, nodes_cons,
    OpTree.entries_eq, BlockOf.toBlock, OpTree.toOp, List.map_append, List.map_cons,
    OpTree.inner, OpTree.regions_mk, OpTree.id_mk, OpTree.kind_mk, OpTree.head_mk, List.sum_append,
    List.sum_cons, RegionOf.entries_eq, layout_nil, layout_eq none, List.map_map, Function.comp_def,
    RegionOf.toRegion, List.map_nil]
  abel

/-- Blocks are discarded whose ops have no regions. -/
theorem discardBlocks {blocks : List BlockTree} (h : Arena f (layout r blocks + e))
    (hb : ∀ b ∈ blocks, ∀ n ∈ b.ops, n.regions = []) :
    Meets stop (Edit.discardBlocks (blocks.map (·.id))) f fun _ f' =>
      Arena f' (deadOps blocks + e) ∧ f.Grows f' [] := by
  induction blocks generalizing f e with
  | nil => exact .pure ⟨h.as (by simp [deadOps]), .refl f⟩
  | cons B blocks ih =>
    have hi : (B.ops.map OpTree.inner).sum = 0 := by
      refine List.sum_eq_zero fun x hx => ?_
      obtain ⟨n, hn, rfl⟩ := List.mem_map.mp hx
      simp [OpTree.inner, hb B (by simp) n hn]
    have h₀ := h.as (d := .block B.id (B.toBlock r) +
      (((B.ops.map fun n => (n.id, n.toOp B.id)).map fun p => .op p.1 p.2).sum +
        (layout r blocks + e)))
      (by
        simp only [layout_cons, BlockOf.entries_eq, nodes_eq, hi, List.map_map, Function.comp_def]
        abel)
    refine .bind (killBlock _ (by simp [BlockOf.toBlock, Function.comp_def]) ?_ h₀) ?_
    · intro p hp
      obtain ⟨n, hn, rfl⟩ := List.mem_map.mp hp
      simp [OpTree.toOp, hb B (by simp) n hn]
    · rintro _ f₁ ⟨h₁, g₁⟩
      refine (ih (h₁.as (add_left_comm _ _ _)) fun b' hb' => hb b' (by simp [hb'])).mono ?_
      rintro _ f₂ ⟨h₂, g₂⟩
      refine ⟨h₂.as ?_, by simpa using g₁.trans g₂⟩
      simp only [deadOps, List.flatMap_cons, List.sum_append, List.map_map, Function.comp_def]
      abel

end Arena

/-! ## Blocks of the body -/

namespace Func.Holds

variable {stop : Prop} {f : Func} {e : Entries} {body L R : List BlockTree} {b : BlockId}
  {args : List ValueId} {pre post : List OpTree} {x : OpTree}

theorem as {d : Entries} (h : f.Holds body e) (he : e = d) : f.Holds body d := he ▸ h

theorem arena (h : f.Holds body e) : Arena f (layout (some f.body) body +
    (.region f.body ⟨body.map (·.id), none⟩ + e)) :=
  Arena.as h (add_left_comm _ _ _)

/-- The blocks of the body are as they were, but for what is in them. -/
theorem of_arena {r : RegionId} {ids : List BlockId}
    (h : Arena f (layout (some r) body + (.region r ⟨ids, none⟩ + e))) (hr : f.body = r)
    (hi : body.map (·.id) = ids) : f.Holds body e := by
  subst hr hi
  exact Arena.as h (add_left_comm _ _ _)

theorem splitAfter (h : f.Holds (L ++ ⟨b, args, pre ++ x :: post⟩ :: R) e) :
    Meets stop (Edit.splitAfter x.id) f fun next f' =>
      f'.Holds (L ++ ⟨b, args, pre ++ [x]⟩ :: ⟨next, [], post⟩ :: R) e ∧ f.Grows f' [] := by
  have h₀ := h.arena.at_op.as (d := .op x.id (x.toOp b) +
    (.block b (BlockOf.toBlock ⟨b, args, pre ++ x :: post⟩ (some f.body)) +
      (.region f.body ⟨(L ++ ⟨b, args, pre ++ x :: post⟩ :: R).map (·.id), none⟩ +
        (((post.map fun n => (n.id, n.toOp b)).map fun p => .op p.1 p.2).sum +
          (nodes b pre + x.inner + (post.map OpTree.inner).sum + layout (some f.body) L +
            layout (some f.body) R + e)))))
    (by rw [nodes_eq b post, List.map_map]; simp only [Function.comp_def]; abel)
  have hb : (BlockOf.toBlock ⟨b, args, pre ++ x :: post⟩ (some f.body)).ops =
      pre.map (·.id) ++ x.id :: (post.map fun n => (n.id, n.toOp b)).map Prod.fst := by
    simp [BlockOf.toBlock]
  have hr : (L ++ ⟨b, args, pre ++ x :: post⟩ :: R).map (·.id) =
      L.map (·.id) ++ b :: R.map (·.id) := by simp
  refine (h₀.splitAfter_entry _ rfl hb h.arena.op_notMem rfl hr h.arena.block_notMem).mono ?_
  rintro next f' ⟨h', g⟩
  refine ⟨?_, g⟩
  refine Arena.as h' ?_
  rw [g.body]
  simp only [layout_append, layout_cons, BlockOf.entries_eq, nodes_append, nodes_cons,
    OpTree.entries_eq, nodes_eq next post, List.map_map, Function.comp_def, BlockOf.toBlock,
    OpTree.toOp, List.map_append, List.map_cons, List.map_nil, nodes_nil]
  abel

theorem spliceBefore {B : BlockTree} {blocks : List BlockTree}
    (h : f.Holds (L ++ B :: R) (layout none blocks + e)) :
    Meets stop (Edit.spliceBefore B.id (blocks.map (·.id))) f fun _ f' =>
      f'.Holds (L ++ blocks ++ B :: R) e ∧ f.Grows f' [] := by
  have h₀ := h.arena.at_block.as (d := .block B.id (B.toBlock (some f.body)) +
    (.region f.body ⟨(L ++ B :: R).map (·.id), none⟩ +
      (((blocks.map fun b => (b.id, b.toBlock none)).map fun p => .block p.1 p.2).sum +
        ((blocks.map fun b => nodes b.id b.ops).sum + nodes B.id B.ops + layout (some f.body) L +
          layout (some f.body) R + e))))
    (by
      rw [layout_eq none, List.map_map]
      simp only [Function.comp_def]
      abel)
  have hr : (L ++ B :: R).map (·.id) = L.map (·.id) ++ B.id :: R.map (·.id) := by simp
  have hs : Meets stop _ f _ :=
    h₀.spliceBefore _ (by simp [BlockOf.toBlock]) rfl hr h.arena.block_notMem
  rw [List.map_map] at hs
  refine hs.mono ?_
  rintro _ f' ⟨h', g⟩
  refine ⟨Arena.as h' ?_, g⟩
  rw [g.body]
  simp only [layout_append, layout_cons, BlockOf.entries_eq, layout_eq (some f.body) blocks,
    List.map_map, Function.comp_def, BlockOf.toBlock, List.map_append, List.map_cons]
  abel

/-- A new block has no owner yet. -/
theorem newBlock {argTys : List Ty} (h : f.Holds body e) :
    Meets stop (Edit.newBlock argTys) f fun id f' =>
      f'.Holds body (layout none [⟨id, f.freshValues argTys.length, []⟩] + e) ∧
        f.Grows f' (argTys.zipIdx.map fun p => ⟨p.1, .blockArg id p.2⟩) := by
  refine (Arena.newBlock h).mono ?_
  rintro id f' ⟨h', g⟩
  refine ⟨Arena.as h' ?_, g⟩
  rw [g.body]
  simp only [layout_cons, layout_nil, BlockOf.entries_eq, BlockOf.toBlock, nodes_nil, List.map_nil]
  abel

theorem appendBlock {B : BlockTree} (h : f.Holds body (layout none [B] + e)) :
    Meets stop (Edit.appendBlock f.body B.id) f fun _ f' =>
      f'.Holds (body ++ [B]) e ∧ f.Grows f' [] := by
  have h₀ := Arena.as h (d := .block B.id (B.toBlock none) +
    (.region f.body ⟨body.map (·.id), none⟩ + (nodes B.id B.ops + layout (some f.body) body + e)))
    (by simp only [layout_cons, layout_nil, BlockOf.entries_eq]; abel)
  refine h₀.appendBlock.mono ?_
  rintro _ f' ⟨h', g⟩
  refine ⟨Arena.as h' ?_, g⟩
  rw [g.body]
  simp only [layout_append, layout_cons, layout_nil, BlockOf.entries_eq, BlockOf.toBlock,
    List.map_append, List.map_cons, List.map_nil]
  abel

end Func.Holds

end Unnest
