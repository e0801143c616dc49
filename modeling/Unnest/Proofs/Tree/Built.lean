import Unnest.Proofs.Lowering.Runs
import Unnest.Proofs.Ownership.Lowering
/-!
# The tree of a built function

In a function that a builder has made, a nested block comes after the block around it, so the tree
below a block can be read from the tables by recursion on the blocks still to come
(`Func.blockTree`). The entries of a block itself, of its ops and of their regions belong to that
block alone. Summed over all blocks they are the entries of the whole tree, because every block is
nested in at most one other; hence the tables hold the tree (`Func.Building.holds`).
-/

namespace Unnest

namespace Func

/-- What the table holds for an op. -/
def opAt (f : Func) (x : OpId) : Op := (f.op? x).getD default

/-- The block of a name, or an empty one. -/
def blockAt (f : Func) (b : BlockId) : Block := (f.block? b).getD default

/-- The region of a name, or an empty one. -/
def regionAt (f : Func) (r : RegionId) : Region := (f.region? r).getD default

/-- An op with given regions. -/
def opWith (f : Func) (x : OpId) (tree : RegionId → RegionTree) : OpTree :=
  .mk ⟨x, (f.opAt x).kind, (f.opAt x).operands, (f.opAt x).results, (f.opAt x).span⟩
    ((f.opAt x).regions.map tree)

/-- The tree below a block, in a function where nested blocks come later. -/
def blockTree (f : Func) (b : BlockId) : BlockTree :=
  ⟨b, (f.blockAt b).args, (f.blockAt b).ops.map fun x => f.opWith x fun r =>
    ⟨r, (f.regionAt r).blocks.map fun c =>
      if b.index < c.index ∧ c.index < f.blocks.size then f.blockTree c else ⟨c, [], []⟩⟩⟩
  termination_by f.blocks.size - b.index
  decreasing_by omega

/-- The tree below an op. -/
def opTree (f : Func) (x : OpId) : OpTree :=
  f.opWith x fun r => ⟨r, (f.regionAt r).blocks.map f.blockTree⟩

/-- The tree of the body. -/
def bodyTree (f : Func) : List BlockTree := (f.regionAt f.body).blocks.map f.blockTree

@[simp] theorem id_opTree (f : Func) (x : OpId) : (f.opTree x).id = x := rfl

@[simp] theorem id_blockTree (f : Func) (b : BlockId) : (f.blockTree b).id = b := by
  rw [blockTree]

theorem opAt_of_eq {f : Func} {x : OpId} {d : Op} (h : f.op? x = some d) : f.opAt x = d := by
  simp [opAt, h]

theorem blockAt_of_eq {f : Func} {b : BlockId} {d : Block} (h : f.block? b = some d) :
    f.blockAt b = d := by
  simp [blockAt, h]

theorem regionAt_of_eq {f : Func} {r : RegionId} {d : Region} (h : f.region? r = some d) :
    f.regionAt r = d := by
  simp [regionAt, h]

theorem opsIn_eq (f : Func) (b : BlockId) : f.opsIn b = (f.blockAt b).ops := by
  unfold opsIn blockAt
  cases f.block? b <;> rfl

theorem blocksIn_eq (f : Func) (r : RegionId) : f.blocksIn r = (f.regionAt r).blocks := by
  unfold blocksIn regionAt
  cases f.region? r <;> rfl

end Func

namespace Func.Building

variable {f : Func} {under : OpId → Prop}

/-- The op that a block lists. -/
theorem op_of_mem (h : f.Building under) {b : BlockId} {x : OpId} (hx : x ∈ (f.blockAt b).ops) :
    f.op? x = some (f.opAt x) ∧ (f.opAt x).parent = some b ∧ (f.opAt x).live = true := by
  rw [← opsIn_eq, h.sound.ops] at hx
  cases hd : f.op? x with
  | none => simp [ownerOfOp, hd] at hx
  | some d =>
    rw [opAt_of_eq hd]
    exact ⟨rfl, by simpa [ownerOfOp, hd] using hx, h.liveOp x d hd⟩

/-- The block that a region lists. -/
theorem block_of_mem (h : f.Building under) {r : RegionId} {c : BlockId}
    (hc : c ∈ (f.regionAt r).blocks) : f.block? c = some (f.blockAt c) ∧
      (f.blockAt c).parent = some r ∧ (f.blockAt c).live = true := by
  rw [← blocksIn_eq, h.sound.blocks] at hc
  cases hd : f.block? c with
  | none => simp [ownerOfBlock, hd] at hc
  | some d =>
    rw [blockAt_of_eq hd]
    exact ⟨rfl, by simpa [ownerOfBlock, hd] using hc, h.liveBlock c d hd⟩

/-- The region that an op owns. -/
theorem region_of_mem (h : f.Building under) {b : BlockId} {x : OpId} {r : RegionId}
    (hx : x ∈ (f.blockAt b).ops) (hr : r ∈ (f.opAt x).regions) :
    f.region? r = some (f.regionAt r) ∧ (f.regionAt r).parent = some x := by
  have hp := h.sound.region x _ r (h.op_of_mem hx).1 hr
  cases hd : f.region? r with
  | none => simp [hd] at hp
  | some d =>
    rw [regionAt_of_eq hd]
    exact ⟨rfl, by simpa [hd] using hp⟩

theorem blockTree_eq (h : f.Building under) (b : BlockId) :
    f.blockTree b = ⟨b, (f.blockAt b).args, (f.blockAt b).ops.map f.opTree⟩ := by
  rw [blockTree]
  congr 1
  refine List.map_congr_left fun x hx => ?_
  unfold opTree opWith
  congr 1
  refine List.map_congr_left fun r hr => ?_
  congr 1
  refine List.map_congr_left fun c hc => if_pos ⟨?_, ?_⟩
  · obtain ⟨ho, hp, -⟩ := h.op_of_mem hx
    exact h.nested x _ b r c ho hp hr (blocksIn_eq f r ▸ hc)
  · obtain ⟨hb, -⟩ := h.block_of_mem hc
    exact (Array.getElem?_eq_some_iff.mp hb).1

/-! ## Entries -/

end Func.Building

/-- Sums of entries over lists of lists. -/
theorem Entries.sum_flatMap {α β : Type} (l : List α) (g : α → List β) (e : β → Entries) :
    ((l.flatMap g).map e).sum = (l.map fun a => ((g a).map e).sum).sum := by
  induction l with
  | nil => rfl
  | cons a l ih => simp [ih]

namespace Func

/-- The regions of the ops of a block. -/
def regionsUnder (f : Func) (b : BlockId) : List RegionId :=
  (f.blockAt b).ops.flatMap fun x => (f.opAt x).regions

/-- The blocks right below a block. -/
def blocksUnder (f : Func) (b : BlockId) : List BlockId :=
  (f.regionsUnder b).flatMap fun r => (f.regionAt r).blocks

/-- The entries of a block itself, of its ops and of their regions. -/
def ownEntries (f : Func) (b : BlockId) : Entries :=
  .block b (f.blockAt b) + ((f.blockAt b).ops.map fun x => .op x (f.opAt x)).sum +
    ((f.regionsUnder b).map fun r => .region r (f.regionAt r)).sum

/-- The entries of the tree below a block. -/
def treeEntries (f : Func) (b : BlockId) : Entries :=
  (f.blockTree b).entries (f.blockAt b).parent

/-- The names of all blocks in the table. -/
def allBlocks (f : Func) : List BlockId := (List.range f.blocks.size).map BlockId.mk

/-- The ops that some block lists. -/
def allOps (f : Func) : List OpId := f.allBlocks.flatMap fun b => (f.blockAt b).ops

/-- The regions of ops that some block lists. -/
def nestedRegions (f : Func) : List RegionId := f.allBlocks.flatMap f.regionsUnder

/-- The blocks in the regions of ops that some block lists. -/
def nestedBlocks (f : Func) : List BlockId := f.allBlocks.flatMap f.blocksUnder

theorem mem_allBlocks {f : Func} {b : BlockId} : b ∈ f.allBlocks ↔ b.index < f.blocks.size := by
  simp only [allBlocks, List.mem_map, List.mem_range]
  constructor
  · rintro ⟨i, hi, rfl⟩
    exact hi
  · exact fun h => ⟨b.index, h, rfl⟩

theorem nodup_allBlocks (f : Func) : f.allBlocks.Nodup :=
  List.nodup_range.map fun _ _ h => by simpa using h

namespace Building

variable {f : Func} {under : OpId → Prop}

theorem block_of_mem_allBlocks (h : f.Building under) {b : BlockId} (hb : b ∈ f.allBlocks) :
    f.block? b = some (f.blockAt b) ∧ (f.blockAt b).live = true := by
  have hlt := mem_allBlocks.mp hb
  have hd : f.block? b = some f.blocks[b.index] := Array.getElem?_eq_getElem hlt
  rw [blockAt_of_eq hd]
  exact ⟨hd, h.liveBlock b _ hd⟩

/-- The entries of an op and of what is below it. -/
theorem entries_opTree (h : f.Building under) {b : BlockId} {x : OpId}
    (hx : x ∈ (f.blockAt b).ops) : (f.opTree x).entries b = .op x (f.opAt x) +
      ((f.opAt x).regions.map fun r => .region r (f.regionAt r) +
        ((f.regionAt r).blocks.map f.treeEntries).sum).sum := by
  obtain ⟨-, hp, hl⟩ := h.op_of_mem hx
  rw [OpTree.entries_eq]
  congr 1
  · rw [id_opTree]
    congr 1
    simp [OpTree.toOp, opTree, opWith, OpTree.kind, Function.comp_def, ← hp, ← hl]
  · unfold OpTree.inner opTree opWith
    rw [OpTree.regions_mk, List.map_map]
    congr 1
    refine List.map_congr_left fun r hr => ?_
    obtain ⟨-, hpr⟩ := h.region_of_mem hx hr
    rw [Function.comp_apply, RegionOf.entries_eq]
    congr 1
    · simp [RegionOf.toRegion, Function.comp_def, ← hpr]
    · unfold layout
      rw [List.map_map]
      congr 1
      refine List.map_congr_left fun c hc => ?_
      rw [Function.comp_apply, treeEntries, (h.block_of_mem hc).2.1]

/-- The entries of the tree below a block: its own, and those of the blocks right below it. -/
theorem treeEntries_eq (h : f.Building under) {b : BlockId} (hb : b ∈ f.allBlocks) :
    f.treeEntries b = f.ownEntries b + ((f.blocksUnder b).map f.treeEntries).sum := by
  have hops : nodes b ((f.blockAt b).ops.map f.opTree) =
      ((f.blockAt b).ops.map fun x => .op x (f.opAt x)).sum +
        (((f.regionsUnder b).map fun r => .region r (f.regionAt r)).sum +
          ((f.blocksUnder b).map f.treeEntries).sum) := by
    unfold nodes blocksUnder regionsUnder
    rw [Entries.sum_flatMap, Entries.sum_flatMap, Entries.sum_flatMap, ← List.sum_map_add,
      ← List.sum_map_add, List.map_map]
    congr 1
    refine List.map_congr_left fun x hx => ?_
    rw [Function.comp_apply, h.entries_opTree hx, List.sum_map_add]
  obtain ⟨-, hl⟩ := h.block_of_mem_allBlocks hb
  rw [treeEntries, h.blockTree_eq, BlockOf.entries_eq, hops, ownEntries, add_assoc, add_assoc]
  congr 2
  simp [BlockOf.toBlock, Function.comp_def, ← hl]

/-! ## Every node once -/

theorem nodup_allOps (h : f.Building under) : f.allOps.Nodup := by
  refine List.nodup_flatMap.mpr ⟨fun b _ => opsIn_eq f b ▸ h.sound.opsOnce b, ?_⟩
  refine (nodup_allBlocks f).imp fun {b c} hne x hb hc => hne ?_
  have := (h.op_of_mem hb).2.1.symm.trans (h.op_of_mem hc).2.1
  simpa using this

theorem nestedRegions_eq (f : Func) :
    f.nestedRegions = f.allOps.flatMap fun x => (f.opAt x).regions := by
  unfold nestedRegions allOps
  rw [List.flatMap_assoc]
  rfl

theorem nestedBlocks_eq (f : Func) :
    f.nestedBlocks = f.nestedRegions.flatMap fun r => (f.regionAt r).blocks := by
  unfold nestedBlocks nestedRegions
  rw [List.flatMap_assoc]
  rfl

theorem mem_allOps (h : f.Building under) {x : OpId} (hx : x ∈ f.allOps) :
    f.op? x = some (f.opAt x) := by
  obtain ⟨b, -, hb⟩ := List.mem_flatMap.mp hx
  exact (h.op_of_mem hb).1

theorem mem_nestedRegions (h : f.Building under) {r : RegionId} (hr : r ∈ f.nestedRegions) :
    ∃ x ∈ f.allOps, r ∈ (f.opAt x).regions ∧ f.region? r = some (f.regionAt r) ∧
      (f.regionAt r).parent = some x := by
  rw [nestedRegions_eq] at hr
  obtain ⟨x, hx, hr⟩ := List.mem_flatMap.mp hr
  obtain ⟨b, hb, hx'⟩ := List.mem_flatMap.mp hx
  exact ⟨x, hx, hr, h.region_of_mem hx' hr⟩

theorem bodyRegion (h : f.Building under) :
    f.region? f.body = some (f.regionAt f.body) ∧ (f.regionAt f.body).parent = none := by
  have hb := h.sound.body
  cases hd : f.region? f.body with
  | none => simp [hd] at hb
  | some d =>
    rw [regionAt_of_eq hd]
    exact ⟨rfl, by simpa [hd] using hb⟩

/-- The body and the regions of the ops are different. -/
theorem nodup_regions (h : f.Building under) : (f.body :: f.nestedRegions).Nodup := by
  refine List.nodup_cons.mpr ⟨fun hb => ?_, ?_⟩
  · obtain ⟨x, -, -, -, hx⟩ := h.mem_nestedRegions hb
    rw [h.bodyRegion.2] at hx
    cases hx
  · have hreg (x : OpId) (hx : x ∈ f.allOps) (r : RegionId) (hr : r ∈ (f.opAt x).regions) :=
      h.sound.region x _ r (h.mem_allOps hx) hr
    rw [nestedRegions_eq]
    refine List.nodup_flatMap.mpr ⟨fun x hx => h.regionsOnce x _ (h.mem_allOps hx), ?_⟩
    refine h.nodup_allOps.imp_of_mem fun {x y} hx hy hne r hrx hry => hne ?_
    have := (hreg x hx r hrx).symm.trans (hreg y hy r hry)
    simpa using this

/-- The blocks of the body and the nested ones are different. -/
theorem nodup_blocks (h : f.Building under) :
    ((f.regionAt f.body).blocks ++ f.nestedBlocks).Nodup := by
  have hall : (f.regionAt f.body).blocks ++ f.nestedBlocks =
      (f.body :: f.nestedRegions).flatMap fun r => (f.regionAt r).blocks := by
    rw [nestedBlocks_eq, List.flatMap_cons]
  rw [hall]
  refine List.nodup_flatMap.mpr ⟨fun r _ => blocksIn_eq f r ▸ h.sound.blocksOnce r, ?_⟩
  refine h.nodup_regions.imp fun {r q} hne c hr hq => hne ?_
  have := (h.block_of_mem hr).2.1.symm.trans (h.block_of_mem hq).2.1
  simpa using this

theorem blocks_subset (h : f.Building under) :
    (f.regionAt f.body).blocks ++ f.nestedBlocks ⊆ f.allBlocks := by
  intro c hc
  obtain ⟨r, hr⟩ : ∃ r, c ∈ (f.regionAt r).blocks := by
    rcases List.mem_append.mp hc with hc | hc
    · exact ⟨_, hc⟩
    · rw [nestedBlocks_eq] at hc
      obtain ⟨r, -, hr⟩ := List.mem_flatMap.mp hc
      exact ⟨r, hr⟩
  exact mem_allBlocks.mpr (Array.getElem?_eq_some_iff.mp (h.block_of_mem hr).1).1

/-! ## The tables hold the tree -/

/-- The own entries of all blocks are the entries of the tree, and more. -/
theorem exists_sum_ownEntries (h : f.Building under) :
    ∃ rest, (f.allBlocks.map f.ownEntries).sum =
      ((f.regionAt f.body).blocks.map f.treeEntries).sum + rest := by
  have hle : (↑((f.regionAt f.body).blocks ++ f.nestedBlocks) : Multiset BlockId) ≤
      ↑f.allBlocks :=
    (Multiset.le_iff_subset (Multiset.coe_nodup.mpr h.nodup_blocks)).mpr fun c hc =>
      h.blocks_subset (by simpa using hc)
  obtain ⟨others, ho⟩ := Multiset.le_iff_exists_add.mp hle
  have hall : (f.allBlocks.map f.treeEntries).sum =
      ((f.regionAt f.body).blocks.map f.treeEntries).sum +
        (f.nestedBlocks.map f.treeEntries).sum + (others.map f.treeEntries).sum := by
    have := congrArg (fun m => (Multiset.map f.treeEntries m).sum) ho
    simpa using this
  have hown : (f.allBlocks.map f.treeEntries).sum =
      (f.allBlocks.map f.ownEntries).sum + (f.nestedBlocks.map f.treeEntries).sum := by
    unfold nestedBlocks
    rw [Entries.sum_flatMap, ← List.sum_map_add]
    congr 1
    exact List.map_congr_left fun b hb => h.treeEntries_eq hb
  refine ⟨(others.map f.treeEntries).sum,
    add_right_cancel (b := (f.nestedBlocks.map f.treeEntries).sum) ?_⟩
  rw [← hown, hall]
  abel

/-- The values that the blocks and ops define, with their origins. -/
def valuesOf (f : Func) : List (ValueId × Origin) :=
  (f.allBlocks.flatMap fun b => (f.blockAt b).args.zipIdx.map fun p => (p.1, .blockArg b p.2)) ++
    f.allOps.flatMap fun x => (f.opAt x).results.zipIdx.map fun p => (p.1, .opResult x p.2)

theorem sum_ownEntries (f : Func) : (f.allBlocks.map f.ownEntries).sum =
    (↑(f.allOps.map fun x => (x, f.opAt x)), ↑(f.allBlocks.map fun b => (b, f.blockAt b)),
      ↑(f.nestedRegions.map fun r => (r, f.regionAt r)), ↑(valuesOf f)) := by
  have hargs (l : List BlockId) : (l.map fun b => Entries.block b (f.blockAt b)).sum =
      (0, ↑(l.map fun b => (b, f.blockAt b)), 0, ↑(l.flatMap fun b =>
        (f.blockAt b).args.zipIdx.map fun p => (p.1, Origin.blockArg b p.2))) := by
    induction l with
    | nil => rfl
    | cons b l ih => rw [List.map_cons, List.sum_cons, ih]; rfl
  have hops (l : List OpId) : (l.map fun x => Entries.op x (f.opAt x)).sum =
      (↑(l.map fun x => (x, f.opAt x)), 0, 0, ↑(l.flatMap fun x =>
        (f.opAt x).results.zipIdx.map fun p => (p.1, Origin.opResult x p.2))) := by
    induction l with
    | nil => rfl
    | cons x l ih => rw [List.map_cons, List.sum_cons, ih]; rfl
  unfold ownEntries
  rw [List.sum_map_add, List.sum_map_add, ← Entries.sum_flatMap, ← Entries.sum_flatMap, hargs,
    show f.allBlocks.flatMap (fun b => (f.blockAt b).ops) = f.allOps from rfl,
    show f.allBlocks.flatMap (fun b => f.regionsUnder b) = f.nestedRegions from rfl, hops,
    Entries.sum_region]
  simp [valuesOf]

/-- A value has the origin that is listed with it. -/
theorem origin_of_mem (h : f.Building under) {e : ValueId × Origin} (he : e ∈ valuesOf f) :
    (f.value? e.1).map (·.origin) = some e.2 := by
  rcases List.mem_append.mp he with he | he
  · obtain ⟨b, hb, he⟩ := List.mem_flatMap.mp he
    obtain ⟨p, hp, rfl⟩ := List.mem_map.mp he
    exact h.sound.arg b _ p.2 p.1 (h.block_of_mem_allBlocks hb).1
      (List.mem_zipIdx_iff_getElem?.mp hp)
  · obtain ⟨x, hx, he⟩ := List.mem_flatMap.mp he
    obtain ⟨p, hp, rfl⟩ := List.mem_map.mp he
    exact h.sound.result x _ p.2 p.1 (h.mem_allOps hx) (List.mem_zipIdx_iff_getElem?.mp hp)

/-- The positions in a list, each made into something else. -/
theorem nodup_origins {α β γ : Type} {l : List α} {g : α → List γ} {k : α → Nat → β} (hl : l.Nodup)
    (hk : ∀ a i a' i', k a i = k a' i' → a = a' ∧ i = i') :
    (l.flatMap fun a => (g a).zipIdx.map fun p => k a p.2).Nodup := by
  refine List.nodup_flatMap.mpr ⟨fun a _ => ?_, hl.imp fun {a b} hne x ha hb => hne ?_⟩
  · have hr : (g a).zipIdx.map (fun p => k a p.2) = (List.range (g a).length).map (k a) := by
      rw [List.range_eq_range', ← List.zipIdx_map_snd 0 (g a), List.map_map]
      rfl
    rw [hr]
    exact List.nodup_range.map fun i j hij => (hk _ _ _ _ hij).2
  · obtain ⟨p, -, rfl⟩ := List.mem_map.mp ha
    obtain ⟨q, -, hq⟩ := List.mem_map.mp hb
    exact ((hk _ _ _ _ hq).1).symm

theorem nodup_valuesOf (h : f.Building under) : ((valuesOf f).map Prod.fst).Nodup := by
  have horigins : ((valuesOf f).map Prod.snd).Nodup := by
    unfold valuesOf
    simp only [List.map_append, List.map_flatMap, List.map_map, Function.comp_def]
    refine List.nodup_append.mpr ⟨nodup_origins (nodup_allBlocks f) (by simp),
      nodup_origins h.nodup_allOps (by simp), ?_⟩
    intro a ha c hc hac
    obtain ⟨b, -, ha⟩ := List.mem_flatMap.mp ha
    obtain ⟨p, -, rfl⟩ := List.mem_map.mp ha
    obtain ⟨x, -, hc⟩ := List.mem_flatMap.mp hc
    obtain ⟨q, -, rfl⟩ := List.mem_map.mp hc
    cases hac
  refine List.Nodup.map_on (fun e he e' he' hee => Prod.ext hee ?_) horigins.of_map
  have := (h.origin_of_mem he).symm.trans (hee ▸ h.origin_of_mem he')
  simpa using this

/-- The tables of a built function hold its tree. -/
theorem holds (h : f.Building under) : f.Holds f.bodyTree 0 := by
  obtain ⟨rest, hrest⟩ := h.exists_sum_ownEntries
  have hsum : Arena f (.region f.body (f.regionAt f.body) +
      (f.allBlocks.map f.ownEntries).sum) := by
    rw [sum_ownEntries]
    refine ⟨⟨fun e he => ?_, ?_⟩, ⟨fun e he => ?_, ?_⟩, ⟨fun e he => ?_, ?_⟩, ⟨fun e he => ?_, ?_⟩⟩
    · obtain ⟨x, hx, rfl⟩ : ∃ x ∈ f.allOps, (x, f.opAt x) = e := by simpa using he
      exact h.mem_allOps hx
    · simpa [Function.comp_def] using h.nodup_allOps
    · obtain ⟨b, hb, rfl⟩ : ∃ b ∈ f.allBlocks, (b, f.blockAt b) = e := by simpa using he
      exact (h.block_of_mem_allBlocks hb).1
    · simpa [Function.comp_def] using nodup_allBlocks f
    · obtain rfl | ⟨r, hr, rfl⟩ : e = (f.body, f.regionAt f.body) ∨
          ∃ r ∈ f.nestedRegions, (r, f.regionAt r) = e := by simpa using he
      · exact h.bodyRegion.1
      · obtain ⟨-, -, -, hr, -⟩ := h.mem_nestedRegions hr
        exact hr
    · simpa [Function.comp_def] using h.nodup_regions
    · exact h.origin_of_mem (by simpa using he)
    · simpa using h.nodup_valuesOf
  have hbody : layout (some f.body) f.bodyTree =
      ((f.regionAt f.body).blocks.map f.treeEntries).sum := by
    unfold layout bodyTree
    rw [List.map_map]
    congr 1
    refine List.map_congr_left fun c hc => ?_
    rw [Function.comp_apply, treeEntries, (h.block_of_mem hc).2.1]
  have hregion : f.regionAt f.body = ⟨f.bodyTree.map (·.id), none⟩ := by
    rw [← h.bodyRegion.2]
    simp [bodyTree, Function.comp_def]
  rw [hrest, ← hbody, hregion, ← add_assoc] at hsum
  exact hsum.left.as (by rw [add_zero])

/-! ## The ops of the tree -/

/-- Every op of the tree is read from the table. -/
theorem eq_opTree_of_inBlocks (h : f.Building under) {n : OpTree} (b : BlockId)
    (hn : n.InBlocks [f.blockTree b]) :
    ∃ c x, x ∈ (f.blockAt c).ops ∧ n = f.opTree x := by
  rw [h.blockTree_eq] at hn
  obtain ⟨B, hB, m, hm, hw⟩ := hn
  cases List.mem_singleton.mp hB
  obtain ⟨x, hx, rfl⟩ := List.mem_map.mp hm
  rcases OpTree.within_iff.mp hw with rfl | ⟨r, hr, C, hC, hw⟩
  · exact ⟨b, x, hx, rfl⟩
  · obtain ⟨q, hq, rfl⟩ := List.mem_map.mp hr
    obtain ⟨c, hc, rfl⟩ := List.mem_map.mp hC
    -- The recursion goes to a block that comes later.
    have hlt := h.nested x _ b q c (h.op_of_mem hx).1 (h.op_of_mem hx).2.1 hq
      (blocksIn_eq f q ▸ hc)
    have hsize := (Array.getElem?_eq_some_iff.mp (h.block_of_mem hc).1).1
    exact h.eq_opTree_of_inBlocks c ⟨_, List.mem_singleton_self _, hw⟩
  termination_by f.blocks.size - b.index

/-- The ops of a finished function fit their kinds. -/
theorem fits (h : f.Building fun _ => False) : Everywhere OpTree.Fits f.bodyTree := by
  rintro n ⟨B, hB, hn⟩
  obtain ⟨b, -, rfl⟩ := List.mem_map.mp hB
  obtain ⟨c, x, hx, rfl⟩ := h.eq_opTree_of_inBlocks b ⟨_, List.mem_singleton_self _, hn⟩
  obtain ⟨hop, -, -⟩ := h.op_of_mem hx
  rcases h.shaped x _ hop id with hr | hr
  · exact .inl (by simp [opTree, opWith, hr])
  · refine .inr ⟨by simpa [opTree, opWith] using hr.length_eq, fun hk q hq => ?_⟩
    obtain ⟨r, hmem, rfl⟩ := List.mem_map.mp hq
    rw [show (f.opAt x).kind = .construct .tryCatch from hk] at hr
    obtain ⟨r₁, -, h₁, ⟨r₂, -, h₂, ⟨r₃, -, h₃, rfl, rfl⟩, rfl⟩, hregions⟩ := by
      simpa only [OpKind.regionSizes, Construct.regionSizes, List.forall₂_cons_right_iff,
        List.forall₂_nil_right_iff] using hr
    have hone : (f.regionAt r).blocks.length = 1 := by
      rw [← blocksIn_eq]
      rw [hregions] at hmem
      obtain rfl | rfl | rfl : r = r₁ ∨ r = r₂ ∨ r = r₃ := by simpa using hmem
      · omega
      · omega
      · omega
    exact List.length_eq_one_iff.mp (by simpa using hone)

end Building

/-- The lowering of a built function starts from its tree. -/
theorem Building.stage {f : Func} (h : f.Building fun _ => False) :
    Stage 0 (.start f) f.bodyTree where
  holds := h.holds
  fits := h.fits
  quiet := by simp

end Func

end Unnest
