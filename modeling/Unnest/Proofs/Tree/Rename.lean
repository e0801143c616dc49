import Unnest.Proofs.Tree.Edits
/-!
# Renaming in the tree

A tree is renamed node by node and value by value. There are two occasions: the results of a
construct get new names when the construct is lowered, which only touches operands, and the clone of
a region has new names for everything in it.
-/

namespace Unnest

/-- New names for the nodes and values of a tree. The values that are used and those that are
defined are renamed apart from each other, and so are the blocks that are named and those that
are there. -/
structure Renaming where
  op : OpId → OpId := fun id => id
  block : BlockId → BlockId := fun id => id
  region : RegionId → RegionId := fun id => id
  result : ValueId → ValueId := fun v => v
  use : ValueId → ValueId := fun v => v
  target : BlockId → BlockId := fun id => id

/-- Only what is used is renamed. -/
def Renaming.used (σ : ValueId → ValueId) (τ : BlockId → BlockId) : Renaming :=
  { use := σ, target := τ }

/-- Only operands are renamed. -/
abbrev Renaming.uses (σ : ValueId → ValueId) : Renaming := .used σ fun id => id

section

variable (σ : ValueId → ValueId) (τ : BlockId → BlockId)

@[simp] theorem Renaming.used_op (id : OpId) : (used σ τ).op id = id := rfl
@[simp] theorem Renaming.used_block : (used σ τ).block = fun id => id := rfl
@[simp] theorem Renaming.used_region (id : RegionId) : (used σ τ).region id = id := rfl
@[simp] theorem Renaming.used_result : (used σ τ).result = fun v => v := rfl
@[simp] theorem Renaming.used_use : (used σ τ).use = σ := rfl
@[simp] theorem Renaming.used_target : (used σ τ).target = τ := rfl

end

/-- The op with every name in it replaced. -/
def Head.rename (ρ : Renaming) (h : Head) : Head where
  id := ρ.op h.id
  kind := h.kind.mapSuccessors ρ.target
  operands := h.operands.map ρ.use
  results := h.results.map ρ.result
  span := h.span

/-- A tree under other names. -/
def OpTree.rename (ρ : Renaming) : OpTree → OpTree
  | .mk h rs => .mk (h.rename ρ) (rs.map fun r =>
    ⟨ρ.region r.id, r.blocks.map fun b =>
      ⟨ρ.block b.id, b.args.map ρ.result, b.ops.map fun n => OpTree.rename ρ n⟩⟩)
  termination_by n => sizeOf n
  decreasing_by exact OpTree.sizeOf_lt ‹_› ‹_› ‹_›

/-- The block with every name in it replaced. -/
def BlockOf.rename (ρ : Renaming) (b : BlockTree) : BlockTree :=
  ⟨ρ.block b.id, b.args.map ρ.result, b.ops.map (OpTree.rename ρ)⟩

/-- The region with every name in it replaced. -/
def RegionOf.rename (ρ : Renaming) (r : RegionTree) : RegionTree :=
  ⟨ρ.region r.id, r.blocks.map (BlockOf.rename ρ)⟩

section

variable (ρ : Renaming)

theorem OpTree.rename_mk (h : Head) (rs : List RegionTree) :
    (OpTree.mk h rs).rename ρ = .mk (h.rename ρ) (rs.map (RegionOf.rename ρ)) := by
  rw [OpTree.rename]
  rfl

@[simp] theorem OpTree.head_rename (n : OpTree) : (n.rename ρ).head = n.head.rename ρ := by
  cases n
  rw [OpTree.rename_mk]
  rfl

@[simp] theorem OpTree.regions_rename (n : OpTree) :
    (n.rename ρ).regions = n.regions.map (RegionOf.rename ρ) := by
  cases n
  rw [OpTree.rename_mk]
  rfl

@[simp] theorem OpTree.id_rename (n : OpTree) : (n.rename ρ).id = ρ.op n.id := by
  rw [OpTree.id, OpTree.head_rename]
  rfl

@[simp] theorem OpTree.kind_rename (n : OpTree) :
    (n.rename ρ).kind = n.kind.mapSuccessors ρ.target := by
  rw [OpTree.kind, OpTree.head_rename]
  rfl

@[simp] theorem BlockOf.id_rename (b : BlockTree) : (b.rename ρ).id = ρ.block b.id := rfl

@[simp] theorem BlockOf.args_rename (b : BlockTree) :
    (b.rename ρ).args = b.args.map ρ.result := rfl

@[simp] theorem BlockOf.ops_rename (b : BlockTree) :
    (b.rename ρ).ops = b.ops.map (OpTree.rename ρ) := rfl

@[simp] theorem RegionOf.id_rename (r : RegionTree) : (r.rename ρ).id = ρ.region r.id := rfl

@[simp] theorem RegionOf.blocks_rename (r : RegionTree) :
    (r.rename ρ).blocks = r.blocks.map (BlockOf.rename ρ) := rfl

end

@[simp] theorem OpKind.mapSuccessors_id (k : OpKind) : k.mapSuccessors (fun b => b) = k := by
  cases k with
  | construct c => cases c <;> rfl
  | instr i => rfl
  | transfer t => cases t <;> simp [OpKind.mapSuccessors, Transfer.mapSuccessors]

/-- A renaming that changes nothing. -/
theorem OpTree.rename_uses_id (n : OpTree) : n.rename (.uses fun v => v) = n := by
  induction n using OpTree.induct with
  | step h rs ih =>
    have hs : rs.map (RegionOf.rename (.uses fun v => v)) = rs := by
      refine (List.map_congr_left fun r hr => ?_).trans (List.map_id' rs)
      have hb : r.blocks.map (BlockOf.rename (.uses fun v => v)) = r.blocks := by
        refine (List.map_congr_left fun b hb => ?_).trans (List.map_id' r.blocks)
        have hn := (List.map_congr_left fun n hn => ih r hr b hb n hn).trans (List.map_id' b.ops)
        simp [BlockOf.rename, hn]
      rw [RegionOf.rename, hb]
      rfl
    rw [OpTree.rename_mk, hs]
    simp [Head.rename]

theorem BlockOf.rename_uses_id (b : BlockTree) : b.rename (.uses fun v => v) = b := by
  have := (List.map_congr_left fun n _ => n.rename_uses_id).trans (List.map_id' b.ops)
  simp [BlockOf.rename, this]

theorem BlockOf.rename_uses (σ : ValueId → ValueId) (b : BlockId) (args : List ValueId)
    (ops : List OpTree) : BlockOf.rename (.uses σ) ⟨b, args, ops⟩ =
      ⟨b, args, ops.map (OpTree.rename (.uses σ))⟩ := by
  simp [BlockOf.rename]

/-- Operands renamed twice. -/
theorem OpTree.rename_uses_uses (σ τ : ValueId → ValueId) (n : OpTree) :
    (n.rename (.uses σ)).rename (.uses τ) = n.rename (.uses fun v => τ (σ v)) := by
  induction n using OpTree.induct with
  | step h rs ih =>
    rw [OpTree.rename_mk, OpTree.rename_mk, OpTree.rename_mk, List.map_map]
    have hh : (h.rename (.uses σ)).rename (.uses τ) = h.rename (.uses fun v => τ (σ v)) := by
      simp [Head.rename, Function.comp_def]
    rw [hh]
    refine congrArg _ (List.map_congr_left fun r hr => ?_)
    simp only [Function.comp_def, RegionOf.rename, List.map_map, Renaming.used_region]
    refine congrArg _ (List.map_congr_left fun b hb => ?_)
    simp only [Function.comp_def, BlockOf.rename, List.map_map, Renaming.used_block,
      Renaming.used_result]
    exact congrArg _ (List.map_congr_left fun n hn => ih r hr b hb n hn)

theorem BlockOf.rename_uses_uses (σ τ : ValueId → ValueId) (b : BlockTree) :
    (b.rename (.uses σ)).rename (.uses τ) = b.rename (.uses fun v => τ (σ v)) := by
  simp only [BlockOf.rename, Function.comp_def, List.map_map, Renaming.used_block,
    Renaming.used_result]
  exact congrArg _ (List.map_congr_left fun n _ => n.rename_uses_uses σ τ)

/-! ## Entries -/

/-- An op with what it uses renamed. -/
def Op.mapUses (σ : ValueId → ValueId) (τ : BlockId → BlockId) (d : Op) : Op :=
  { d with operands := d.operands.map σ, kind := d.kind.mapSuccessors τ }

section

variable (g : Op → Op)

@[simp] theorem Entries.mapOps_add (e e' : Entries) :
    (e + e').mapOps g = e.mapOps g + e'.mapOps g := by
  simp [Entries.mapOps]

@[simp] theorem Entries.mapOps_zero : (0 : Entries).mapOps g = 0 := rfl

theorem Entries.mapOps_sum {α : Type} (l : List α) (e : α → Entries) :
    (l.map e).sum.mapOps g = (l.map fun a => (e a).mapOps g).sum := by
  induction l with
  | nil => rfl
  | cons a l ih => simp [ih]

@[simp] theorem Entries.mapOps_region (id : RegionId) (d : Region) :
    (Entries.region id d).mapOps g = .region id d := rfl

@[simp] theorem Entries.mapOps_block (id : BlockId) (d : Block) :
    (Entries.block id d).mapOps g = .block id d := rfl

theorem Entries.mapOps_op (hg : ∀ d, (g d).results = d.results) (id : OpId) (d : Op) :
    (Entries.op id d).mapOps g = .op id (g d) := by
  simp [Entries.op, Entries.mapOps, hg]

end

/-- A change of the live ops that renames what they use. -/
structure Op.Renames (σ : ValueId → ValueId) (τ : BlockId → BlockId) (g : Op → Op) : Prop where
  results : ∀ d, (g d).results = d.results
  live : ∀ d : Op, d.live = true → g d = d.mapUses σ τ

section

variable {σ : ValueId → ValueId} {τ : BlockId → BlockId} {g : Op → Op}

theorem OpTree.entries_used (hg : Op.Renames σ τ g) (n : OpTree) (b : BlockId) :
    (n.rename (.used σ τ)).entries b = (n.entries b).mapOps g := by
  induction n using OpTree.induct generalizing b with
  | step h rs ih =>
    rw [OpTree.entries_eq, OpTree.entries_eq, Entries.mapOps_add, Entries.mapOps_op _ hg.results,
      hg.live _ rfl]
    congr 1
    · simp [OpTree.toOp, Op.mapUses, Head.rename, Function.comp_def]
    · simp only [OpTree.inner, OpTree.regions_rename, OpTree.regions_mk, OpTree.id_rename,
        OpTree.id_mk, Renaming.used_op, List.map_map, Entries.mapOps_sum]
      refine congrArg List.sum (List.map_congr_left fun r hr => ?_)
      simp only [Function.comp_def, RegionOf.entries_eq, Entries.mapOps_add, Entries.mapOps_region]
      congr 1
      · simp [RegionOf.toRegion, Function.comp_def]
      · simp only [layout, RegionOf.blocks_rename, List.map_map, Entries.mapOps_sum,
          RegionOf.id_rename, Renaming.used_region]
        refine congrArg List.sum (List.map_congr_left fun b hb => ?_)
        simp only [Function.comp_def, BlockOf.entries_eq, Entries.mapOps_add, Entries.mapOps_block]
        congr 1
        · simp [BlockOf.toBlock, Function.comp_def]
        · simp only [nodes, BlockOf.ops_rename, List.map_map, Entries.mapOps_sum,
            BlockOf.id_rename, Renaming.used_block]
          exact congrArg List.sum (List.map_congr_left fun n hn => ih r hr b hb n hn b.id)

theorem layout_used (hg : Op.Renames σ τ g) (r : Option RegionId) (l : List BlockTree) :
    layout r (l.map (BlockOf.rename (.used σ τ))) = (layout r l).mapOps g := by
  simp only [layout, List.map_map, Entries.mapOps_sum]
  refine congrArg List.sum (List.map_congr_left fun b _ => ?_)
  simp only [Function.comp_def, BlockOf.entries_eq, Entries.mapOps_add, Entries.mapOps_block]
  congr 1
  · simp [BlockOf.toBlock, Function.comp_def]
  · simp only [nodes, BlockOf.ops_rename, List.map_map, Entries.mapOps_sum, BlockOf.id_rename,
      Renaming.used_block]
    exact congrArg List.sum (List.map_congr_left fun n _ => n.entries_used hg b.id)

end

theorem Op.renames_replaceUse (old new : ValueId) :
    Op.Renames (fun v => if v = old then new else v) (fun b => b) (Op.replaceUse old new) where
  results d := by unfold Op.replaceUse; split <;> rfl
  live d hd := by simp [Op.replaceUse, hd, Op.mapUses]

variable {f : Func}

theorem Func.Holds.replaceAllUses {stop : Prop} {body : List BlockTree} {old new : ValueId}
    (h : f.Holds body 0) : Meets stop (Edit.replaceAllUses old new) f fun _ f' =>
      f'.Holds (body.map (BlockOf.rename (.uses fun v => if v = old then new else v))) 0 ∧
        f.Grows f' [] := by
  refine (Arena.replaceAllUses h).mono ?_
  rintro _ f' ⟨h', g⟩
  refine ⟨h'.as ?_, g⟩
  rw [g.body, layout_used (Op.renames_replaceUse old new)]
  simp [Function.comp_def]

variable {e : Entries} {b : BlockId}

theorem Func.Holds.addBlockArg {stop : Prop} {L R : List BlockTree} {args : List ValueId}
    {ops : List OpTree} {ty : Ty} (h : f.Holds (L ++ ⟨b, args, ops⟩ :: R) e) :
    Meets stop (Edit.addBlockArg b ty) f fun v f' => v = ⟨f.values.size⟩ ∧
      f'.Holds (L ++ ⟨b, args ++ [v], ops⟩ :: R) e ∧
        f.Grows f' [⟨ty, .blockArg b args.length⟩] := by
  refine h.arena.at_block.addBlockArg.mono ?_
  rintro v f' ⟨hv, h', g⟩
  refine ⟨hv, ?_, g⟩
  exact .of_arena (Arena.of_block h') g.body (by simp)

/-! ## The block behind a construct -/

/-- What a value is called after it has been replaced in turn as the pairs say. -/
def replaced : List (ValueId × ValueId) → ValueId → ValueId
  | [], v => v
  | (old, new) :: rest, v => replaced rest (if v = old then new else v)

variable {v : ValueId}

/-- The values of a tree have a type. -/
theorem Arena.valueTy {o : Origin} (h : Arena f e) (hv : (v, o) ∈ e.2.2.2) :
    ∃ ty, f.value? v = some ⟨ty, o⟩ := by
  have := h.values.holds _ hv
  simp only [Option.map_eq_some_iff] at this
  obtain ⟨⟨ty, o'⟩, hf, ho⟩ := this
  exact ⟨ty, by rw [Func.value?, hf, ← ho]⟩

theorem Arena.results_exist {x : OpTree} (hx : Arena f (.op x.id (x.toOp b) + e)) :
    ∀ v ∈ x.head.results, f.value? v ≠ none := by
  intro v hv
  obtain ⟨i, hi, hvi⟩ := List.getElem_of_mem hv
  obtain ⟨ty, hty⟩ := hx.left.valueTy (v := v) (o := .opResult x.id i) (by
    rw [Entries.op_values, Entries.resultsOf, Multiset.mem_coe, List.mem_map]
    exact ⟨(v, i), by simp [List.mk_mem_zipIdx_iff_getElem?, hi, hvi, OpTree.toOp], rfl⟩)
  simp [hty]

theorem Arena.args_exist {d : Block} (h : Arena f (.block b d + e)) :
    ∀ v ∈ d.args, f.value? v ≠ none := by
  intro v hv
  obtain ⟨i, hi, hvi⟩ := List.getElem_of_mem hv
  obtain ⟨ty, hty⟩ := h.left.valueTy (v := v) (o := .blockArg b i) (by
    rw [Entries.block_values, Entries.argsOf, Multiset.mem_coe, List.mem_map]
    exact ⟨(v, i), by simp [List.mk_mem_zipIdx_iff_getElem?, hi, hvi], rfl⟩)
  simp [hty]

theorem valueTy_eq_error (h : f.value? v = none) : Edit.valueTy v f = .error .outOfRange f := by
  have hv : f.valueTy v = .error .outOfRange := by
    rw [Func.valueTy, Func.value, h]
    rfl
  change (liftM (f.valueTy v) : Edit Ty) f = _
  rw [hv]
  rfl

theorem valueTy_eq {d : ValueInfo} (h : f.value? v = some d) : Edit.valueTy v f = .ok d.ty f := by
  have hv : f.valueTy v = .ok d.ty := by
    rw [Func.valueTy, Func.value, h]
    rfl
  change (liftM (f.valueTy v) : Edit Ty) f = _
  rw [hv]
  rfl

end Unnest
