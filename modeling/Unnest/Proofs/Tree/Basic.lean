import Unnest.Proofs.Arena.Entries
/-!
# The tree of a function

The body of a function as a tree: blocks in layout order, their ops, the regions of the ops, the
blocks of those. A node of the tree carries the position of its entry and everything the entry
says except its owner, which the place in the tree gives. `OpTree.entries` lists the entries that
make up the tree below an op, and `Holds f body rest` says that the tables of `f` hold the tree of
`body`, and the entries of `rest` besides, with no node twice. An edit of the tables is then an
edit of the tree.
-/

namespace Unnest

/-- An op without what its place in the tree says. -/
structure Head where
  id : OpId
  kind : OpKind
  operands : List ValueId
  results : List ValueId
  span : Option Span
  deriving DecidableEq, Inhabited

/-- A block with what stands in it. -/
structure BlockOf (α : Type) where
  id : BlockId
  args : List ValueId
  ops : List α

/-- A region with its blocks. -/
structure RegionOf (α : Type) where
  id : RegionId
  blocks : List (BlockOf α)

/-- An op with the regions below it. -/
inductive OpTree where
  | mk (head : Head) (regions : List (RegionOf OpTree))

/-- A block with the ops nested in it. -/
abbrev BlockTree := BlockOf OpTree

/-- A region with the ops nested in it. -/
abbrev RegionTree := RegionOf OpTree

namespace OpTree

/-- The op itself, without its regions. -/
def head : OpTree → Head
  | mk h _ => h

/-- The regions of the op. -/
def regions : OpTree → List RegionTree
  | mk _ rs => rs

/-- The name of the op. -/
def id (n : OpTree) : OpId := n.head.id

/-- The kind of the op. -/
def kind (n : OpTree) : OpKind := n.head.kind

@[simp] theorem head_mk (h : Head) (rs : List RegionTree) : (mk h rs).head = h := rfl

@[simp] theorem regions_mk (h : Head) (rs : List RegionTree) : (mk h rs).regions = rs := rfl

@[simp] theorem id_mk (h : Head) (rs : List RegionTree) : (mk h rs).id = h.id := rfl

@[simp] theorem kind_mk (h : Head) (rs : List RegionTree) : (mk h rs).kind = h.kind := rfl

/-- An op without regions. -/
def leaf (h : Head) : OpTree := mk h []

@[simp] theorem head_leaf (h : Head) : (leaf h).head = h := rfl

@[simp] theorem regions_leaf (h : Head) : (leaf h).regions = [] := rfl

@[simp] theorem id_leaf (h : Head) : (leaf h).id = h.id := rfl

@[simp] theorem kind_leaf (h : Head) : (leaf h).kind = h.kind := rfl

theorem sizeOf_lt {h : Head} {rs : List RegionTree} {r : RegionTree} {b : BlockTree} {n : OpTree}
    (hr : r ∈ rs) (hb : b ∈ r.blocks) (hn : n ∈ b.ops) : sizeOf n < sizeOf (mk h rs) := by
  have h₁ := List.sizeOf_lt_of_mem hr
  have h₂ := List.sizeOf_lt_of_mem hb
  have h₃ := List.sizeOf_lt_of_mem hn
  obtain ⟨ri, rb⟩ := r
  obtain ⟨bi, ba, bo⟩ := b
  simp only [mk.sizeOf_spec, RegionOf.mk.sizeOf_spec, BlockOf.mk.sizeOf_spec] at *
  omega

/-- The table entry of an op in a block. -/
def toOp (n : OpTree) (b : BlockId) : Op where
  kind := n.kind
  operands := n.head.operands
  results := n.head.results
  regions := n.regions.map (·.id)
  parent := some b
  span := n.head.span
  live := true

end OpTree

/-- The table entry of a block in a region, or without an owner. -/
def BlockOf.toBlock (b : BlockTree) (parent : Option RegionId) : Block where
  ops := b.ops.map (·.id)
  args := b.args
  parent := parent
  live := true

/-- The table entry of a region of an op, or of the body. -/
def RegionOf.toRegion (r : RegionTree) (parent : Option OpId) : Region where
  blocks := r.blocks.map (·.id)
  parent := parent

/-- The entries of an op in a block and of everything below it. -/
def OpTree.entries (b : BlockId) : OpTree → Entries
  | .mk h rs =>
    .op h.id ((OpTree.mk h rs).toOp b) + (rs.map fun r =>
      .region r.id (r.toRegion (some h.id)) + (r.blocks.map fun b =>
        .block b.id (b.toBlock (some r.id)) + (b.ops.map fun n =>
          OpTree.entries b.id n).sum).sum).sum
  termination_by n => sizeOf n
  decreasing_by exact OpTree.sizeOf_lt ‹_› ‹_› ‹_›

/-- The entries of a block and of everything in it. -/
def BlockOf.entries (parent : Option RegionId) (b : BlockTree) : Entries :=
  .block b.id (b.toBlock parent) + (b.ops.map (OpTree.entries b.id)).sum

/-- The entries of a region and of everything in it. -/
def RegionOf.entries (parent : Option OpId) (r : RegionTree) : Entries :=
  .region r.id (r.toRegion parent) + (r.blocks.map (BlockOf.entries (some r.id))).sum

/-- The entries below an op. -/
def OpTree.inner (n : OpTree) : Entries := (n.regions.map (RegionOf.entries (some n.id))).sum

theorem OpTree.entries_eq (b : BlockId) (n : OpTree) :
    n.entries b = .op n.id (n.toOp b) + n.inner := by
  cases n
  rw [OpTree.entries]
  rfl

@[simp] theorem OpTree.inner_leaf (h : Head) : (leaf h).inner = 0 := rfl

/-- What holds of an op whenever it holds of the ops right below it holds of every op. -/
theorem OpTree.induct {motive : OpTree → Prop}
    (step : ∀ h rs, (∀ r ∈ rs, ∀ b ∈ r.blocks, ∀ n ∈ b.ops, motive n) → motive (mk h rs)) :
    ∀ n, motive n
  | mk h rs => step h rs fun r hr b hb n hn =>
    have := OpTree.sizeOf_lt (h := h) hr hb hn
    OpTree.induct step n
  termination_by n => sizeOf n
  decreasing_by exact this

/-- The entries of ops in a block, with everything below them. -/
def nodes (b : BlockId) (l : List OpTree) : Entries := (l.map (OpTree.entries b)).sum

/-- The entries of blocks in a region, with everything in them. -/
def layout (r : Option RegionId) (l : List BlockTree) : Entries :=
  (l.map (BlockOf.entries r)).sum

section Lists

variable (b : BlockId) (r : Option RegionId)

@[simp] theorem nodes_nil : nodes b [] = 0 := rfl

@[simp] theorem nodes_cons (n : OpTree) (l : List OpTree) :
    nodes b (n :: l) = n.entries b + nodes b l := by
  simp [nodes]

@[simp] theorem nodes_append (l l' : List OpTree) : nodes b (l ++ l') = nodes b l + nodes b l' := by
  simp [nodes]

@[simp] theorem layout_nil : layout r [] = 0 := rfl

@[simp] theorem layout_cons (b : BlockTree) (l : List BlockTree) :
    layout r (b :: l) = b.entries r + layout r l := by
  simp [layout]

@[simp] theorem layout_append (l l' : List BlockTree) :
    layout r (l ++ l') = layout r l + layout r l' := by
  simp [layout]

theorem BlockOf.entries_eq (b : BlockTree) :
    b.entries r = .block b.id (b.toBlock r) + nodes b.id b.ops := rfl

theorem RegionOf.entries_eq (o : Option OpId) (r : RegionTree) :
    r.entries o = .region r.id (r.toRegion o) + layout (some r.id) r.blocks := rfl

/-- The ops of a block themselves, and what is below them. -/
theorem nodes_eq (l : List OpTree) :
    nodes b l = (l.map fun n => .op n.id (n.toOp b)).sum + (l.map OpTree.inner).sum := by
  induction l with
  | nil => simp
  | cons n l ih =>
    rw [nodes_cons, ih, n.entries_eq]
    simp only [List.map_cons, List.sum_cons]
    abel

/-- The blocks of a region themselves, and what is in them. -/
theorem layout_eq (l : List BlockTree) :
    layout r l =
      (l.map fun b => .block b.id (b.toBlock r)).sum + (l.map fun b => nodes b.id b.ops).sum := by
  induction l with
  | nil => simp
  | cons b l ih =>
    rw [layout_cons, ih, b.entries_eq]
    simp only [List.map_cons, List.sum_cons]
    abel

end Lists

/-- The tables of `f` hold the tree of `body`, and `rest` besides. -/
def Func.Holds (f : Func) (body : List BlockTree) (rest : Entries) : Prop :=
  Arena f (.region f.body ⟨body.map (·.id), none⟩ + (layout (some f.body) body + rest))

namespace Arena

variable {f : Func} {e : Entries}

/-- One of several sums of entries. -/
theorem of_mem {α : Type} {l : List α} {g : α → Entries} {a : α} (h : Arena f (l.map g).sum)
    (ha : a ∈ l) : Arena f (g a) := by
  obtain ⟨s, t, rfl⟩ := List.append_of_mem ha
  rw [List.map_append, List.sum_append, List.map_cons, List.sum_cons] at h
  exact h.right.left

/-- The ops of a block are different. -/
theorem nodup_nodes {b : BlockId} {l : List OpTree} (h : Arena f (nodes b l)) :
    (l.map (·.id)).Nodup := by
  rw [nodes_eq] at h
  have := h.left.ops.nodup
  rw [Entries.sum_op_ops] at this
  simpa [Function.comp_def] using this

/-- The blocks of a region are different. -/
theorem nodup_layout {r : Option RegionId} {l : List BlockTree} (h : Arena f (layout r l)) :
    (l.map (·.id)).Nodup := by
  rw [layout_eq] at h
  have := h.left.blocks.nodup
  rw [Entries.sum_block_blocks] at this
  simpa [Function.comp_def] using this

/-- There are no more regions among the entries than the function has. -/
theorem card_regions_le (h : Arena f e) : e.2.2.1.card ≤ f.regions.size := by
  have hsub : (e.2.2.1.map fun p => p.1.index) ⊆ Multiset.range f.regions.size := by
    intro i hi
    obtain ⟨p, hp, rfl⟩ := Multiset.mem_map.mp hi
    have := h.regions.holds p hp
    exact Multiset.mem_range.mpr (Array.getElem?_eq_some_iff.mp this).1
  have hnd : (e.2.2.1.map fun p => p.1.index).Nodup := by
    have := h.regions.nodup.map RegionId.index_injective
    rwa [Multiset.map_map] at this
  simpa using Multiset.card_le_card (Multiset.le_iff_subset hnd |>.mpr hsub)

end Arena

end Unnest
