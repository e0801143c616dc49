import Unnest.Lower.Scope
import Unnest.Lower.Unwinding
import Unnest.Proofs.Arena.Edits
import Unnest.Proofs.Tree.Basic
/-!
# Reading the tree

A reading of a region walks the tables; here it is shown to walk the tree. No reading of a tree is
given up: a tree has no more levels than it has regions, and the function has at least those.
-/

namespace Unnest

/-- The ops met on a walk that visits an op before what is below it, and looks below an op only
where its kind is as `down` says. -/
def OpTree.walk (down : OpKind → Bool) : OpTree → List OpTree
  | .mk h rs => .mk h rs :: if down h.kind then
      rs.flatMap fun r => r.blocks.flatMap fun b => b.ops.flatMap fun n => OpTree.walk down n
    else []
  termination_by n => sizeOf n
  decreasing_by exact OpTree.sizeOf_lt ‹_› ‹_› ‹_›

/-- The ops met on a walk through blocks. -/
def walkBlocks (down : OpKind → Bool) (bs : List BlockTree) : List OpTree :=
  bs.flatMap fun b => b.ops.flatMap (OpTree.walk down)

/-- The ops met on a walk through regions. -/
def walkRegions (down : OpKind → Bool) (rs : List RegionTree) : List OpTree :=
  rs.flatMap fun r => walkBlocks down r.blocks

theorem OpTree.walk_eq (down : OpKind → Bool) (n : OpTree) :
    n.walk down = n :: walkRegions down (if down n.kind then n.regions else []) := by
  cases n with
  | mk h rs =>
    rw [OpTree.walk]
    split
    · simp_all [walkRegions, walkBlocks]
    · simp_all [walkRegions]

namespace Nest

mutual

/-- The nest has the shape of the tree, as far as it was read. -/
def Ops.Mirrors (down : OpKind → Bool) : Ops → List OpTree → Prop
  | .nil, ts => ts = []
  | .cons op regions rest, ts => ∃ n ts', ts = n :: ts' ∧ op = n.id ∧
      regions.Mirrors down (if down n.kind then n.regions else []) ∧ rest.Mirrors down ts'

/-- The nest lists the blocks of the tree. -/
def Blocks.Mirrors (down : OpKind → Bool) : Blocks → List BlockTree → Prop
  | .nil, bs => bs = []
  | .cons block ops rest, bs => ∃ b bs', bs = b :: bs' ∧ block = b.id ∧
      ops.Mirrors down b.ops ∧ rest.Mirrors down bs'

/-- The nest lists the regions of the tree. -/
def Regions.Mirrors (down : OpKind → Bool) : Regions → List RegionTree → Prop
  | .nil, rs => rs = []
  | .cons region blocks rest, rs => ∃ r rs', rs = r :: rs' ∧ region = r.id ∧
      blocks.Mirrors down r.blocks ∧ rest.Mirrors down rs'

end

mutual

variable {down : OpKind → Bool}

theorem Ops.all_eq : ∀ {nest : Ops} {ts : List OpTree},
    nest.Mirrors down ts → nest.all = (ts.flatMap (OpTree.walk down)).map (·.id)
  | .nil, ts, h => by simp_all [Ops.Mirrors, Ops.all]
  | .cons op regions rest, ts, h => by
    obtain ⟨n, ts', rfl, rfl, hr, ht⟩ := h
    rw [Ops.all, Regions.all_eq hr, Ops.all_eq ht, List.flatMap_cons, OpTree.walk_eq]
    simp

theorem Blocks.all_eq : ∀ {nest : Blocks} {bs : List BlockTree},
    nest.Mirrors down bs → nest.all = (walkBlocks down bs).map (·.id)
  | .nil, bs, h => by simp_all [Blocks.Mirrors, Blocks.all, walkBlocks]
  | .cons block ops rest, bs, h => by
    obtain ⟨b, bs', rfl, rfl, ho, hb⟩ := h
    rw [Blocks.all, Ops.all_eq ho, Blocks.all_eq hb]
    simp [walkBlocks]

theorem Regions.all_eq : ∀ {nest : Regions} {rs : List RegionTree},
    nest.Mirrors down rs → nest.all = (walkRegions down rs).map (·.id)
  | .nil, rs, h => by simp_all [Regions.Mirrors, Regions.all, walkRegions]
  | .cons region blocks rest, rs, h => by
    obtain ⟨r, rs', rfl, rfl, hb, hr⟩ := h
    rw [Regions.all, Blocks.all_eq hb, Regions.all_eq hr]
    simp [walkRegions]

end

end Nest

/-! ## The tables hold the tree that is read -/

/-- The number of regions among entries. -/
def Entries.regionCount (e : Entries) : Nat := e.2.2.1.card

theorem Entries.regionCount_add (e e' : Entries) :
    (e + e').regionCount = e.regionCount + e'.regionCount := by
  simp [regionCount]

theorem Entries.regionCount_le_sum {α : Type} {l : List α} (g : α → Entries) {a : α} (ha : a ∈ l) :
    (g a).regionCount ≤ (l.map g).sum.regionCount := by
  obtain ⟨s, t, rfl⟩ := List.append_of_mem ha
  simp only [List.map_append, List.sum_append, List.map_cons, List.sum_cons, regionCount_add]
  omega

variable {n : OpTree}

/-- What lies right below an op of a region has fewer regions than the region itself. -/
theorem OpTree.regionCount_inner_lt {r : RegionTree} {o : Option OpId} {B : BlockTree}
    (hB : B ∈ r.blocks) (hn : n ∈ B.ops) : n.inner.regionCount < (r.entries o).regionCount := by
  have h₁ := Entries.regionCount_le_sum (BlockOf.entries (some r.id)) hB
  have h₂ := Entries.regionCount_le_sum (OpTree.entries B.id) hn
  have h₃ : (Entries.region r.id (r.toRegion o)).regionCount = 1 := rfl
  rw [BlockOf.entries_eq, Entries.regionCount_add] at h₁
  rw [OpTree.entries_eq, Entries.regionCount_add] at h₂
  rw [RegionOf.entries_eq, Entries.regionCount_add, h₃]
  simp only [nodes, layout] at *
  omega

section

variable {f : Func} {descend : OpId → Except Stop Bool} {down : OpKind → Bool}
  {below : List RegionId → Except Stop Nest.Regions}

/-- The reading looks below the ops of the tree as `down` says. -/
def Descends (f : Func) (descend : OpId → Except Stop Bool) (down : OpKind → Bool) : Prop :=
  ∀ n b, Arena f (OpTree.entries b n) → descend n.id = .ok (down n.kind)

theorem Arena.nestOps (hd : Descends f descend down) {b : BlockId} {ts : List OpTree}
    (h : Arena f (nodes b ts))
    (hb : ∀ n ∈ ts, ∃ nest, below (n.regions.map (·.id)) = .ok nest ∧ nest.Mirrors down n.regions) :
    ∃ nest, f.nestOps descend below (ts.map (·.id)) = .ok nest ∧ nest.Mirrors down ts := by
  induction ts with
  | nil => exact ⟨.nil, rfl, rfl⟩
  | cons n ts ih =>
    rw [nodes_cons] at h
    obtain ⟨rest, hrest, hm⟩ := ih h.right fun m hm => hb m (by simp [hm])
    have hop : f.op n.id = .ok (n.toOp b) := by
      have := h.left
      rw [OpTree.entries_eq] at this
      exact this.op_eq
    obtain ⟨regions, hregions, hmr⟩ := hb n (by simp)
    by_cases hk : down n.kind = true
    · refine ⟨.cons n.id regions rest, ?_, n, ts, rfl, rfl, by rwa [if_pos hk], hm⟩
      simp [Func.nestOps, Func.nestBelow, hd n b h.left, hk, hop, OpTree.toOp, hregions, hrest,
        Bind.bind, Except.bind, Pure.pure, Except.pure]
    · refine ⟨.cons n.id .nil rest, ?_, n, ts, rfl, rfl, by rw [if_neg hk]; rfl, hm⟩
      simp [Func.nestOps, Func.nestBelow, hd n b h.left, hk, hrest, Bind.bind, Except.bind,
        Pure.pure, Except.pure]

theorem Arena.nestBlocks (hd : Descends f descend down) {r : Option RegionId}
    {bs : List BlockTree} (h : Arena f (layout r bs))
    (hb : ∀ B ∈ bs, ∀ n ∈ B.ops, ∃ nest, below (n.regions.map (·.id)) = .ok nest ∧
      nest.Mirrors down n.regions) :
    ∃ nest, f.nestBlocks descend below (bs.map (·.id)) = .ok nest ∧ nest.Mirrors down bs := by
  induction bs with
  | nil => exact ⟨.nil, rfl, rfl⟩
  | cons B bs ih =>
    rw [layout_cons] at h
    obtain ⟨rest, hrest, hm⟩ := ih h.right fun B' hB' => hb B' (by simp [hB'])
    have hB := h.left
    rw [BlockOf.entries_eq] at hB
    obtain ⟨ops, hops, hmo⟩ := hB.right.nestOps hd fun n hn => hb B (by simp) n hn
    refine ⟨.cons B.id ops rest, ?_, B, bs, rfl, rfl, hmo, hm⟩
    simp [Func.nestBlocks, hB.block_eq, BlockOf.toBlock, hops, hrest, Bind.bind, Except.bind,
      Pure.pure, Except.pure]

theorem Arena.nestRegions (hd : Descends f descend down) {o : Option OpId}
    {rs : List RegionTree} (h : Arena f (rs.map (RegionOf.entries o)).sum)
    (hb : ∀ r ∈ rs, ∀ B ∈ r.blocks, ∀ n ∈ B.ops, ∃ nest,
      below (n.regions.map (·.id)) = .ok nest ∧ nest.Mirrors down n.regions) :
    ∃ nest, f.nestRegions descend below (rs.map (·.id)) = .ok nest ∧ nest.Mirrors down rs := by
  induction rs with
  | nil => exact ⟨.nil, rfl, rfl⟩
  | cons r rs ih =>
    rw [List.map_cons, List.sum_cons] at h
    obtain ⟨rest, hrest, hm⟩ := ih h.right fun r' hr' => hb r' (by simp [hr'])
    have hr := h.left
    rw [RegionOf.entries_eq] at hr
    obtain ⟨blocks, hblocks, hmb⟩ := hr.right.nestBlocks hd fun B hB => hb r (by simp) B hB
    refine ⟨.cons r.id blocks rest, ?_, r, rs, rfl, rfl, hmb, hm⟩
    simp [Func.nestRegions, hr.region_eq, RegionOf.toRegion, hblocks, hrest, Bind.bind,
      Except.bind, Pure.pure, Except.pure]

/-- A reading has levels enough if there are no more regions. -/
theorem Arena.nestTo (hd : Descends f descend down) (levels : Nat) {o : Option OpId}
    {rs : List RegionTree} (h : Arena f (rs.map (RegionOf.entries o)).sum)
    (hl : (rs.map (RegionOf.entries o)).sum.regionCount ≤ levels) :
    ∃ nest, f.nestTo descend levels (rs.map (·.id)) = .ok nest ∧ nest.Mirrors down rs := by
  induction levels generalizing o rs with
  | zero =>
    cases rs with
    | nil => exact ⟨.nil, rfl, rfl⟩
    | cons r rs =>
      have : (Entries.region r.id (r.toRegion o)).regionCount = 1 := rfl
      simp only [List.map_cons, List.sum_cons, RegionOf.entries_eq, Entries.regionCount_add] at hl
      omega
  | succ levels ih =>
    refine h.nestRegions hd fun r hr B hB n hn => ih (o := some n.id) ?_ ?_
    · have h₁ := h.of_mem hr
      rw [RegionOf.entries_eq] at h₁
      have h₂ := h₁.right.of_mem hB
      rw [BlockOf.entries_eq] at h₂
      have h₃ := h₂.right.of_mem hn
      rw [OpTree.entries_eq] at h₃
      exact h₃.right
    · have h₁ := Entries.regionCount_le_sum (RegionOf.entries o) hr
      have h₂ := OpTree.regionCount_inner_lt (o := o) hB hn
      rw [OpTree.inner] at h₂
      omega

/-- Blocks that the tables hold can be read. -/
theorem Arena.readBlocks (hd : Descends f descend down) {r : Option RegionId}
    {bs : List BlockTree} (h : Arena f (layout r bs)) :
    ∃ nest, f.readBlocks descend (bs.map (·.id)) = .ok nest ∧ nest.Mirrors down bs := by
  refine h.nestBlocks hd fun B hB n hn => ?_
  have h₂ := h.of_mem hB
  rw [BlockOf.entries_eq] at h₂
  have h₃ := h₂.right.of_mem hn
  rw [OpTree.entries_eq] at h₃
  exact h₃.right.nestTo hd _ h₃.right.card_regions_le

end

/-! ## Jumps to a construct -/

/-- The jumps among an op and what is below it that refer to a construct above them. -/
def OpTree.jumpsTo (c : Construct) (s : Shadow) : OpTree → List OpTree
  | .mk h rs => (if c.isNamedBy s h.kind then [.mk h rs] else []) ++
      rs.flatMap fun r => r.blocks.flatMap fun b => b.ops.flatMap fun n =>
        OpTree.jumpsTo c (s.enter h.kind c.label?) n
  termination_by n => sizeOf n
  decreasing_by exact OpTree.sizeOf_lt ‹_› ‹_› ‹_›

/-- The jumps in blocks that refer to a construct above them. -/
def blockJumps (c : Construct) (s : Shadow) (bs : List BlockTree) : List OpTree :=
  bs.flatMap fun b => b.ops.flatMap (OpTree.jumpsTo c s)

theorem OpTree.jumpsTo_eq (c : Construct) (s : Shadow) (n : OpTree) :
    n.jumpsTo c s = (if c.isNamedBy s n.kind then [n] else []) ++
      n.regions.flatMap fun r => blockJumps c (s.enter n.kind c.label?) r.blocks := by
  cases n
  rw [OpTree.jumpsTo]
  rfl

variable {f : Func} {b : BlockId}

theorem Arena.kind_eq_of_entries (h : Arena f (n.entries b)) :
    (f.op? n.id).map (·.kind) = some n.kind := by
  rw [OpTree.entries_eq] at h
  simp [h.op?, OpTree.toOp]

theorem Arena.kindIs_eq {p : OpKind → Bool} (h : Arena f (n.entries b)) :
    f.kindIs p n.id = p n.kind := by
  rw [OpTree.entries_eq] at h
  simp [Func.kindIs, h.op?, OpTree.toOp]

theorem Arena.inner (h : Arena f (n.entries b)) :
    Arena f (n.regions.map (RegionOf.entries (some n.id))).sum := by
  rw [OpTree.entries_eq] at h
  exact h.right

namespace Nest

mutual

variable {f : Func} {c : Construct}

theorem Ops.jumpsTo_eq : ∀ {nest : Ops} {ts : List OpTree} {s : Shadow}
    {b : BlockId}, nest.Mirrors (fun _ => true) ts → Arena f (nodes b ts) →
    nest.jumpsTo f c s = (ts.flatMap (OpTree.jumpsTo c s)).map (·.id)
  | .nil, ts, s, b, h, _ => by simp_all [Ops.Mirrors, Ops.jumpsTo]
  | .cons op regions rest, ts, s, b, h, hf => by
    obtain ⟨n, ts', rfl, rfl, hr, ht⟩ := h
    rw [nodes_cons] at hf
    rw [if_pos rfl] at hr
    rw [Ops.jumpsTo, hf.left.kind_eq_of_entries]
    simp only [Option.map_some, Option.getD_some]
    rw [Regions.jumpsTo_eq hr hf.left.inner, Ops.jumpsTo_eq ht hf.right, List.flatMap_cons,
      OpTree.jumpsTo_eq]
    split <;> simp

theorem Blocks.jumpsTo_eq : ∀ {nest : Blocks} {bs : List BlockTree}
    {s : Shadow} {r : Option RegionId}, nest.Mirrors (fun _ => true) bs → Arena f (layout r bs) →
    nest.jumpsTo f c s = (blockJumps c s bs).map (·.id)
  | .nil, bs, s, r, h, _ => by simp_all [Blocks.Mirrors, Blocks.jumpsTo, blockJumps]
  | .cons block ops rest, bs, s, r, h, hf => by
    obtain ⟨B, bs', rfl, rfl, ho, hb⟩ := h
    rw [layout_cons, BlockOf.entries_eq] at hf
    rw [Blocks.jumpsTo, Ops.jumpsTo_eq ho hf.left.right, Blocks.jumpsTo_eq hb hf.right]
    simp [blockJumps]

theorem Regions.jumpsTo_eq : ∀ {nest : Regions} {rs : List RegionTree}
    {s : Shadow} {o : Option OpId}, nest.Mirrors (fun _ => true) rs →
    Arena f (rs.map (RegionOf.entries o)).sum →
    nest.jumpsTo f c s = (rs.flatMap fun r => blockJumps c s r.blocks).map (·.id)
  | .nil, rs, s, o, h, _ => by simp_all [Regions.Mirrors, Regions.jumpsTo]
  | .cons region blocks rest, rs, s, o, h, hf => by
    obtain ⟨r, rs', rfl, rfl, hb, hr⟩ := h
    rw [List.map_cons, List.sum_cons, RegionOf.entries_eq] at hf
    rw [Regions.jumpsTo, Blocks.jumpsTo_eq hb hf.left.right, Regions.jumpsTo_eq hr hf.right]
    simp

end

end Nest

/-- Every op of the tree is read. -/
theorem descends_everywhere (f : Func) : Descends f Func.everywhere fun _ => true :=
  fun _ _ _ => rfl

/-! ## Ops of a tree -/

/-- `m` is `n` or lies below it. -/
inductive OpTree.Within (m : OpTree) : OpTree → Prop
  | here : Within m m
  | deeper {h : Head} {rs : List RegionTree} {r : RegionTree} {b : BlockTree} {n : OpTree}
      (hr : r ∈ rs) (hb : b ∈ r.blocks) (hn : n ∈ b.ops) (hm : Within m n) : Within m (.mk h rs)

variable {m : OpTree}

theorem OpTree.Within.entries (h : m.Within n) (hf : Arena f (n.entries b)) :
    ∃ b', Arena f (m.entries b') := by
  induction h generalizing b with
  | here => exact ⟨b, hf⟩
  | deeper hr hb hn _ ih =>
    have h₁ := hf.inner.of_mem hr
    rw [RegionOf.entries_eq] at h₁
    have h₂ := h₁.right.of_mem hb
    rw [BlockOf.entries_eq] at h₂
    exact ih (h₂.right.of_mem hn)

theorem OpTree.within_of_mem_walk {down : OpKind → Bool} (h : m ∈ n.walk down) : m.Within n := by
  induction n using OpTree.induct with
  | step hd rs ih =>
    rw [OpTree.walk_eq] at h
    rcases List.mem_cons.mp h with rfl | h
    · exact .here
    · split at h
      · simp only [walkRegions, walkBlocks, List.mem_flatMap] at h
        obtain ⟨r, hr, b, hb, n, hn, hm⟩ := h
        exact .deeper hr hb hn (ih r hr b hb n hn hm)
      · simp [walkRegions] at h

theorem OpTree.within_of_mem_jumpsTo {c : Construct} {s : Shadow} (h : m ∈ n.jumpsTo c s) :
    m.Within n := by
  induction n using OpTree.induct generalizing s with
  | step hd rs ih =>
    rw [OpTree.jumpsTo_eq] at h
    rcases List.mem_append.mp h with h | h
    · split at h
      · rw [List.mem_singleton.mp h]
        exact .here
      · simp at h
    · simp only [blockJumps, List.mem_flatMap] at h
      obtain ⟨r, hr, b, hb, n, hn, hm⟩ := h
      exact .deeper hr hb hn (ih r hr b hb n hn hm)

/-- `m` lies in one of the blocks. -/
def OpTree.InBlocks (m : OpTree) (bs : List BlockTree) : Prop := ∃ b ∈ bs, ∃ n ∈ b.ops, m.Within n

variable {bs : List BlockTree}

theorem OpTree.InBlocks.entries (h : m.InBlocks bs) {r : Option RegionId}
    (hf : Arena f (layout r bs)) : ∃ b, Arena f (m.entries b) := by
  obtain ⟨B, hB, n, hn, hm⟩ := h
  have h₁ := hf.of_mem hB
  rw [BlockOf.entries_eq] at h₁
  exact hm.entries (h₁.right.of_mem hn)

theorem inBlocks_of_mem_walkBlocks {down : OpKind → Bool} (h : m ∈ walkBlocks down bs) :
    m.InBlocks bs := by
  simp only [walkBlocks, List.mem_flatMap] at h
  obtain ⟨B, hB, n, hn, hm⟩ := h
  exact ⟨B, hB, n, hn, OpTree.within_of_mem_walk hm⟩

theorem inBlocks_of_mem_blockJumps {c : Construct} {s : Shadow} (h : m ∈ blockJumps c s bs) :
    m.InBlocks bs := by
  simp only [blockJumps, List.mem_flatMap] at h
  obtain ⟨B, hB, n, hn, hm⟩ := h
  exact ⟨B, hB, n, hn, OpTree.within_of_mem_jumpsTo hm⟩

/-! ## Regions -/

/-- The outermost ops of a kind in some blocks. -/
def outermostIn (p : OpKind → Bool) (bs : List BlockTree) : List OpTree :=
  (walkBlocks (fun k => !p k) bs).filter fun n => p n.kind

/-- Whether a block holds anything but its end. -/
def BlockOf.holdsOps (B : BlockTree) : Bool := B.ops.any fun n => !n.kind.isTerminator

section

variable {f : Func} {e : Entries} {o : Option OpId} {r : RegionTree} {down : OpKind → Bool}

theorem Arena.walkRegion {descend : OpId → Except Stop Bool} (hd : Descends f descend down)
    (h : Arena f (r.entries o + e)) :
    f.walkRegion r.id descend = .ok ((walkBlocks down r.blocks).map (·.id)) := by
  have hr := h.left
  rw [RegionOf.entries_eq] at hr
  obtain ⟨nest, hn, hm⟩ := hr.right.readBlocks hd
  simp [Func.walkRegion, hr.region_eq, RegionOf.toRegion, hn, Nest.Blocks.all_eq hm, Bind.bind,
    Except.bind, Pure.pure, Except.pure]

theorem Arena.opsInRegion (h : Arena f (r.entries o + e)) :
    f.opsInRegion r.id = .ok ((walkBlocks (fun _ => true) r.blocks).map (·.id)) :=
  h.walkRegion (descends_everywhere f)

variable {q : Option RegionId} {bs : List BlockTree}

theorem Arena.kind_of_inBlocks {n : OpTree} (h : Arena f (layout q bs)) (hn : n.InBlocks bs)
    (p : OpKind → Bool) : f.kindIs p n.id = p n.kind := by
  obtain ⟨b, hb⟩ := hn.entries h
  exact hb.kindIs_eq

/-- Ops that are picked from blocks by their kind. -/
theorem Arena.filter_kindIs (h : Arena f (layout q bs)) {l : List OpTree}
    (hl : ∀ n ∈ l, n.InBlocks bs) (p : OpKind → Bool) :
    (l.map (·.id)).filter (f.kindIs p) = (l.filter fun n => p n.kind).map (·.id) := by
  rw [List.filter_map]
  exact congrArg _ (List.filter_congr fun n hn => h.kind_of_inBlocks (hl n hn) p)

theorem Arena.outermost {p : OpKind → Bool} (h : Arena f (r.entries o + e)) :
    f.outermost r.id p = .ok ((outermostIn p r.blocks).map (·.id)) := by
  have hd : Descends f (fun op => return !p (← f.kind op)) fun k => !p k := by
    intro n b hn
    rw [OpTree.entries_eq] at hn
    simp [hn.kind_eq, OpTree.toOp, Bind.bind, Except.bind, Pure.pure, Except.pure]
  have hr := h.left
  rw [RegionOf.entries_eq] at hr
  unfold Func.outermost
  rw [h.walkRegion hd]
  exact congrArg Except.ok (hr.right.filter_kindIs (fun n hn => inBlocks_of_mem_walkBlocks hn) p)

theorem Arena.mapM_block (h : Arena f (layout q bs)) :
    (bs.map (·.id)).mapM f.block = .ok (bs.map fun B => B.toBlock q) := by
  induction bs with
  | nil => rfl
  | cons B bs ih =>
    rw [layout_cons, BlockOf.entries_eq] at h
    rw [List.map_cons, List.mapM_cons, h.left.block_eq, ih h.right]
    rfl

theorem Arena.shallowOps (h : Arena f (r.entries o + e)) :
    f.shallowOps r.id = .ok ((r.blocks.flatMap (·.ops)).map (·.id)) := by
  have hr := h.left
  rw [RegionOf.entries_eq] at hr
  simp [Func.shallowOps, hr.region_eq, RegionOf.toRegion, hr.right.mapM_block, BlockOf.toBlock,
    Bind.bind, Except.bind, Pure.pure, Except.pure, List.flatMap_map, List.map_flatMap]

/-- A search through ops that the tables hold. -/
theorem anyM_kind {p : OpKind → Bool} {l : List OpTree} (hl : ∀ n ∈ l, f.kind n.id = .ok n.kind) :
    ((l.map (·.id)).anyM fun op => return p (← f.kind op) : Edit Bool) f =
      .ok (l.any fun n => p n.kind) f := by
  induction l with
  | nil => rfl
  | cons n l ih =>
    have ih := ih fun m hm => hl m (by simp [hm])
    rw [List.map_cons, List.anyM_cons]
    change EStateM.bind (EStateM.bind (liftM (f.kind n.id)) _) _ f = _
    rw [hl n (by simp)]
    change (if p n.kind = true then _ else _ : Edit Bool) f = _
    by_cases hp : p n.kind = true
    · simp [hp]
      rfl
    · rw [if_neg hp, ih]
      simp [hp]

theorem Arena.hasOps (h : Arena f (r.entries o + e)) :
    Lower.hasOps r.id f = .ok (r.blocks.any BlockOf.holdsOps) f := by
  have hr := h.left
  rw [RegionOf.entries_eq] at hr
  have hk : ∀ n ∈ r.blocks.flatMap (·.ops), f.kind n.id = .ok n.kind := by
    intro n hn
    obtain ⟨B, hB, hn⟩ := List.mem_flatMap.mp hn
    have hB := hr.right.of_mem hB
    rw [BlockOf.entries_eq] at hB
    have hn := hB.right.of_mem hn
    rw [OpTree.entries_eq] at hn
    exact hn.kind_eq
  have hs : (liftM (f.shallowOps r.id) : Edit (List OpId)) f = .ok ((r.blocks.flatMap (·.ops)).map
      (·.id)) f := by
    rw [h.shallowOps]
    rfl
  change EStateM.bind (liftM (f.shallowOps r.id)) _ f = _
  rw [EStateM.bind, hs]
  refine (anyM_kind (p := fun k => !k.isTerminator) hk).trans ?_
  rw [List.any_flatMap]
  rfl

end

/-! ## Ops met once -/

/-- The ops among entries. -/
def Entries.opIds (e : Entries) : Multiset OpId := e.1.map Prod.fst

@[simp] theorem Entries.opIds_add (e e' : Entries) : (e + e').opIds = e.opIds + e'.opIds := by
  simp [opIds]

@[simp] theorem Entries.opIds_zero : (0 : Entries).opIds = 0 := rfl

@[simp] theorem Entries.opIds_op (id : OpId) (d : Op) : (Entries.op id d).opIds = {id} := rfl

@[simp] theorem Entries.opIds_block (id : BlockId) (d : Block) :
    (Entries.block id d).opIds = 0 := rfl

@[simp] theorem Entries.opIds_region (id : RegionId) (d : Region) :
    (Entries.region id d).opIds = 0 := rfl

theorem Entries.flatMap_le_opIds {α : Type} {l : List α} {ids : α → List OpId} {g : α → Entries}
    (h : ∀ a ∈ l, (↑(ids a) : Multiset OpId) ≤ (g a).opIds) :
    (↑(l.flatMap ids) : Multiset OpId) ≤ (l.map g).sum.opIds := by
  induction l with
  | nil => simp
  | cons a l ih =>
    rw [List.flatMap_cons, List.map_cons, List.sum_cons, opIds_add, ← Multiset.coe_add]
    exact add_le_add (h a (by simp)) (ih fun b hb => h b (by simp [hb]))

/-- A walk meets every op once. -/
theorem OpTree.walk_le_opIds (down : OpKind → Bool) (n : OpTree) :
    ∀ b, (↑((n.walk down).map (·.id)) : Multiset OpId) ≤ (n.entries b).opIds := by
  induction n using OpTree.induct with
  | step h rs ih =>
    intro b
    rw [OpTree.walk_eq, OpTree.entries_eq, Entries.opIds_add, Entries.opIds_op, List.map_cons,
      ← Multiset.cons_coe, ← Multiset.singleton_add]
    refine add_le_add le_rfl ?_
    unfold OpTree.inner walkRegions
    split
    · rw [List.map_flatMap]
      refine Entries.flatMap_le_opIds fun r hr => ?_
      rw [RegionOf.entries_eq, Entries.opIds_add, Entries.opIds_region, zero_add,
        walkBlocks, layout,
        List.map_flatMap]
      refine Entries.flatMap_le_opIds fun B hB => ?_
      rw [BlockOf.entries_eq, Entries.opIds_add, Entries.opIds_block, zero_add, List.map_flatMap]
      exact Entries.flatMap_le_opIds fun n hn => ih r hr B hB n hn B.id
    · simp

theorem walkBlocks_le_opIds (down : OpKind → Bool) (r : Option RegionId) (Bs : List BlockTree) :
    (↑((walkBlocks down Bs).map (·.id)) : Multiset OpId) ≤ (layout r Bs).opIds := by
  rw [walkBlocks, layout, List.map_flatMap]
  refine Entries.flatMap_le_opIds fun B _ => ?_
  rw [BlockOf.entries_eq, Entries.opIds_add, Entries.opIds_block, zero_add, List.map_flatMap]
  exact Entries.flatMap_le_opIds fun n _ => n.walk_le_opIds down B.id

theorem Arena.nodup_walkBlocks {f : Func} {r : Option RegionId} {Bs : List BlockTree}
    (h : Arena f (layout r Bs)) (down : OpKind → Bool) :
    ((walkBlocks down Bs).map (·.id)).Nodup :=
  Multiset.coe_nodup.mp (Multiset.nodup_of_le (walkBlocks_le_opIds down r Bs) h.ops.nodup)

theorem Arena.index_lt_of_mem_opIds {f : Func} {e : Entries} {id : OpId} (ha : Arena f e)
    (hid : id ∈ e.opIds) :
    id.index < f.ops.size := by
  obtain ⟨p, hp, rfl⟩ := Multiset.mem_map.mp hid
  have := ha.ops.holds p hp
  exact (Array.getElem?_eq_some_iff.mp this).1

/-! ## Measures

A measure adds up a number for every op. What is in the finally of a try counts twice, since the
finally is cloned when the try is lowered. -/

/-- The sum over the regions of an op, given the sum of each. -/
def laidOut (kind : OpKind) (sums : List Nat) : Nat :=
  sums.sum + if kind = .construct .tryCatch then sums.getD 2 0 else 0

namespace Nest

/-- What the regions weigh, each as often as it is laid out. -/
def timesEach : List Nat → List Nat → Nat
  | _, [] => 0
  | copies, w :: ws => copies.headD 1 * w + timesEach copies.tail ws

theorem timesEach_nil (ws : List Nat) : timesEach [] ws = ws.sum := by
  induction ws with
  | nil => rfl
  | cons w ws ih => simp [timesEach, ih]

theorem timesEach_eq (kind : OpKind) (ws : List Nat) :
    timesEach (if kind == .construct .tryCatch then [1, 1, 2] else []) ws = laidOut kind ws := by
  unfold laidOut
  by_cases hk : kind = .construct .tryCatch
  · rw [if_pos (by simpa using hk), if_pos hk]
    rcases ws with _ | ⟨a, _ | ⟨b, _ | ⟨c, ws⟩⟩⟩
    · rfl
    · simp [timesEach]
    · simp [timesEach]
    · simp [timesEach, timesEach_nil]
      omega
  · rw [if_neg (by simpa using hk), if_neg hk, timesEach_nil, Nat.add_zero]

end Nest

end Unnest
