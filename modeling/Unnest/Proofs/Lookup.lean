import Mathlib
import Unnest.Func.Basic
/-!
# Functions after an edit

An edit changes one node in place, gives a list of nodes one owner, or adds a node at the end of its
table. Each of these has a name here, with what looking up a node gives afterwards: the edited node
is changed and every other one is as before.
-/

namespace Unnest.Func

/-! ## Changing one node -/

/-- The function with one op changed. -/
def atOp (f : Func) (id : OpId) (g : Op → Op) : Func := { f with ops := f.ops.modify id.index g }

/-- The function with one block changed. -/
def atBlock (f : Func) (id : BlockId) (g : Block → Block) : Func :=
  { f with blocks := f.blocks.modify id.index g }

/-- The function with one region changed. -/
def atRegion (f : Func) (id : RegionId) (g : Region → Region) : Func :=
  { f with regions := f.regions.modify id.index g }

variable (f : Func)

@[grind =] theorem op?_atOp (id : OpId) (g : Op → Op) (x : OpId) :
    (f.atOp id g).op? x = if x = id then (f.op? x).map g else f.op? x := by
  obtain ⟨i⟩ := id
  obtain ⟨j⟩ := x
  by_cases h : j = i
  · subst h
    simp [atOp, op?, Array.getElem?_modify]
  · simp [atOp, op?, Array.getElem?_modify, h, Ne.symm h]

@[grind =] theorem block?_atBlock (id : BlockId) (g : Block → Block) (x : BlockId) :
    (f.atBlock id g).block? x = if x = id then (f.block? x).map g else f.block? x := by
  obtain ⟨i⟩ := id
  obtain ⟨j⟩ := x
  by_cases h : j = i
  · subst h
    simp [atBlock, block?, Array.getElem?_modify]
  · simp [atBlock, block?, Array.getElem?_modify, h, Ne.symm h]

@[grind =] theorem region?_atRegion (id : RegionId) (g : Region → Region) (x : RegionId) :
    (f.atRegion id g).region? x = if x = id then (f.region? x).map g else f.region? x := by
  obtain ⟨i⟩ := id
  obtain ⟨j⟩ := x
  by_cases h : j = i
  · subst h
    simp [atRegion, region?, Array.getElem?_modify]
  · simp [atRegion, region?, Array.getElem?_modify, h, Ne.symm h]

@[simp, grind =] theorem block?_atOp (id g x) : (f.atOp id g).block? x = f.block? x := rfl
@[simp, grind =] theorem region?_atOp (id g x) : (f.atOp id g).region? x = f.region? x := rfl
@[simp, grind =] theorem value?_atOp (id g x) : (f.atOp id g).value? x = f.value? x := rfl
@[simp, grind =] theorem body_atOp (id g) : (f.atOp id g).body = f.body := rfl
@[simp, grind =] theorem op?_atBlock (id g x) : (f.atBlock id g).op? x = f.op? x := rfl
@[simp, grind =] theorem region?_atBlock (id g x) : (f.atBlock id g).region? x = f.region? x := rfl
@[simp, grind =] theorem value?_atBlock (id g x) : (f.atBlock id g).value? x = f.value? x := rfl
@[simp, grind =] theorem body_atBlock (id g) : (f.atBlock id g).body = f.body := rfl
@[simp, grind =] theorem op?_atRegion (id g x) : (f.atRegion id g).op? x = f.op? x := rfl
@[simp, grind =] theorem block?_atRegion (id g x) : (f.atRegion id g).block? x = f.block? x := rfl
@[simp, grind =] theorem value?_atRegion (id g x) : (f.atRegion id g).value? x = f.value? x := rfl
@[simp, grind =] theorem body_atRegion (id g) : (f.atRegion id g).body = f.body := rfl

theorem atOp_comm {g h : Op → Op} (id : OpId) (hc : ∀ d, g (h d) = h (g d)) :
    (f.atOp id g).atOp id h = (f.atOp id h).atOp id g := by
  simp only [atOp]
  congr 1
  refine Array.ext (by simp) fun i _ _ => ?_
  simp only [Array.getElem_modify]
  split
  · exact (hc _).symm
  · rfl

/-- The function in which the listed blocks record the given owner. -/
def setOwners (f : Func) (l : List BlockId) (p : Option RegionId) : Func :=
  l.foldl (fun f b => f.atBlock b fun d => { d with parent := p }) f

/-- The function in which the listed ops record the given owner. -/
def setOpOwners (f : Func) (l : List OpId) (p : Option BlockId) : Func :=
  l.foldl (fun f op => f.atOp op fun d => { d with parent := p }) f

@[grind =] theorem block?_setOwners (f : Func) (l : List BlockId) (p : Option RegionId)
    (x : BlockId) : (f.setOwners l p).block? x =
      if x ∈ l then (f.block? x).map (fun d => { d with parent := p }) else f.block? x := by
  induction l generalizing f with
  | nil => simp [setOwners]
  | cons b l ih =>
    have := ih (f.atBlock b fun d => { d with parent := p })
    simp only [setOwners, List.foldl_cons] at this ⊢
    rw [this, block?_atBlock]
    by_cases hx : x = b <;> by_cases hl : x ∈ l <;> simp [hx, hl]
    all_goals cases f.block? b <;> simp_all

@[grind =] theorem op?_setOpOwners (f : Func) (l : List OpId) (p : Option BlockId)
    (x : OpId) : (f.setOpOwners l p).op? x =
      if x ∈ l then (f.op? x).map (fun d => { d with parent := p }) else f.op? x := by
  induction l generalizing f with
  | nil => simp [setOpOwners]
  | cons b l ih =>
    have := ih (f.atOp b fun d => { d with parent := p })
    simp only [setOpOwners, List.foldl_cons] at this ⊢
    rw [this, op?_atOp]
    by_cases hx : x = b <;> by_cases hl : x ∈ l <;> simp [hx, hl]
    all_goals cases f.op? b <;> simp_all

/-- Only blocks change. -/
theorem setOwners_eq (f : Func) (l : List BlockId) (p : Option RegionId) :
    f.setOwners l p = { f with blocks := (f.setOwners l p).blocks } := by
  induction l generalizing f with
  | nil => rfl
  | cons b l ih => exact ih (f.atBlock b fun d => { d with parent := p })

/-- Only ops change. -/
theorem setOpOwners_eq (f : Func) (l : List OpId) (p : Option BlockId) :
    f.setOpOwners l p = { f with ops := (f.setOpOwners l p).ops } := by
  induction l generalizing f with
  | nil => rfl
  | cons x l ih => exact ih (f.atOp x fun d => { d with parent := p })

@[simp, grind =] theorem op?_setOwners (l p x) : (f.setOwners l p).op? x = f.op? x := by
  rw [setOwners_eq, op?, op?]
@[simp, grind =] theorem region?_setOwners (l p x) : (f.setOwners l p).region? x = f.region? x := by
  rw [setOwners_eq, region?, region?]
@[simp, grind =] theorem value?_setOwners (l p x) : (f.setOwners l p).value? x = f.value? x := by
  rw [setOwners_eq, value?, value?]
@[simp, grind =] theorem body_setOwners (l p) : (f.setOwners l p).body = f.body := by
  rw [setOwners_eq]
@[simp, grind =] theorem block?_setOpOwners (l p x) :
    (f.setOpOwners l p).block? x = f.block? x := by
  rw [setOpOwners_eq, block?, block?]
@[simp, grind =] theorem region?_setOpOwners (l p x) :
    (f.setOpOwners l p).region? x = f.region? x := by
  rw [setOpOwners_eq, region?, region?]
@[simp, grind =] theorem value?_setOpOwners (l p x) :
    (f.setOpOwners l p).value? x = f.value? x := by
  rw [setOpOwners_eq, value?, value?]
@[simp, grind =] theorem body_setOpOwners (l p) : (f.setOpOwners l p).body = f.body := by
  rw [setOpOwners_eq]

/-! ## Adding a node -/

/-- The function with a new region. -/
def withRegion (f : Func) (parent : Option OpId) : Func :=
  { f with regions := f.regions.push { parent } }

/-- The function with a new block, which has no owner. -/
def withBlock (f : Func) (tys : List Ty) : Func :=
  { f with
    blocks := f.blocks.push { args := (List.range tys.length).map fun i => ⟨f.values.size + i⟩ }
    values := f.values ++ (tys.zipIdx.map fun p =>
      ValueInfo.mk p.1 (.blockArg ⟨f.blocks.size⟩ p.2)).toArray }

/-- The function with a new op, which has no owner and owns empty regions. -/
def withOp (f : Func) (kind : OpKind) (operands : List ValueId) (tys : List Ty) (count : Nat) :
    Func :=
  { f with
    ops := f.ops.push {
      kind, operands
      results := (List.range tys.length).map fun i => ⟨f.values.size + i⟩
      regions := (List.range count).map fun i => ⟨f.regions.size + i⟩ }
    values := f.values ++ (tys.zipIdx.map fun p =>
      ValueInfo.mk p.1 (.opResult ⟨f.ops.size⟩ p.2)).toArray
    regions := f.regions ++ Array.replicate count (Region.mk [] (some ⟨f.ops.size⟩)) }

/-- The function with a new value, which is to become an argument of a block. -/
def withArg (f : Func) (b : BlockId) (ty : Ty) (index : Nat) : Func :=
  { f with values := f.values.push ⟨ty, .blockArg b index⟩ }

@[grind =] theorem block?_withBlock (tys : List Ty) (x : BlockId) :
    (f.withBlock tys).block? x =
      if x = ⟨f.blocks.size⟩ then
        some { args := (List.range tys.length).map fun i => ⟨f.values.size + i⟩ }
      else f.block? x := by
  obtain ⟨j⟩ := x
  simp [withBlock, block?, Array.getElem?_push]

@[grind =] theorem op?_withOp (kind : OpKind) (operands : List ValueId) (tys : List Ty)
    (count : Nat) (x : OpId) : (f.withOp kind operands tys count).op? x =
      if x = ⟨f.ops.size⟩ then
        some {
          kind, operands
          results := (List.range tys.length).map fun i => ⟨f.values.size + i⟩
          regions := (List.range count).map fun i => ⟨f.regions.size + i⟩ }
      else f.op? x := by
  obtain ⟨j⟩ := x
  simp [withOp, op?, Array.getElem?_push]

@[grind =] theorem region?_withRegion (parent : Option OpId) (x : RegionId) :
    (f.withRegion parent).region? x =
      if x = ⟨f.regions.size⟩ then some { parent } else f.region? x := by
  obtain ⟨j⟩ := x
  simp [withRegion, region?, Array.getElem?_push]

theorem region?_withOp (kind : OpKind) (operands : List ValueId) (tys : List Ty)
    (count : Nat) (x : RegionId) : (f.withOp kind operands tys count).region? x =
      if x.index < f.regions.size then f.region? x
      else if x.index < f.regions.size + count then some ⟨[], some ⟨f.ops.size⟩⟩ else none := by
  simp only [withOp, region?, Array.getElem?_append, Array.getElem?_replicate]
  grind

theorem value?_withOp (kind : OpKind) (operands : List ValueId) (tys : List Ty)
    (count : Nat) (v : ValueId) : (f.withOp kind operands tys count).value? v =
      if v.index < f.values.size then f.value? v
      else tys[v.index - f.values.size]?.map
        fun ty => ⟨ty, .opResult ⟨f.ops.size⟩ (v.index - f.values.size)⟩ := by
  simp only [withOp, value?, Array.getElem?_append, List.getElem?_toArray, List.getElem?_map,
    List.getElem?_zipIdx]
  grind

theorem value?_withBlock (tys : List Ty) (v : ValueId) : (f.withBlock tys).value? v =
      if v.index < f.values.size then f.value? v
      else tys[v.index - f.values.size]?.map
        fun ty => ⟨ty, .blockArg ⟨f.blocks.size⟩ (v.index - f.values.size)⟩ := by
  simp only [withBlock, value?, Array.getElem?_append, List.getElem?_toArray, List.getElem?_map,
    List.getElem?_zipIdx]
  grind

@[grind =] theorem value?_withArg (b : BlockId) (ty : Ty) (index : Nat) (v : ValueId) :
    (f.withArg b ty index).value? v =
      if v = ⟨f.values.size⟩ then some ⟨ty, .blockArg b index⟩ else f.value? v := by
  obtain ⟨j⟩ := v
  simp [withArg, value?, Array.getElem?_push]

@[simp, grind =] theorem op?_withBlock (tys x) : (f.withBlock tys).op? x = f.op? x := rfl
@[simp, grind =] theorem region?_withBlock (tys x) :
    (f.withBlock tys).region? x = f.region? x := rfl
@[simp, grind =] theorem body_withBlock (tys) : (f.withBlock tys).body = f.body := rfl
@[simp, grind =] theorem block?_withOp (k o t n x) : (f.withOp k o t n).block? x = f.block? x := rfl
@[simp, grind =] theorem body_withOp (k o t n) : (f.withOp k o t n).body = f.body := rfl
@[simp, grind =] theorem op?_withRegion (p x) : (f.withRegion p).op? x = f.op? x := rfl
@[simp, grind =] theorem block?_withRegion (p x) : (f.withRegion p).block? x = f.block? x := rfl
@[simp, grind =] theorem value?_withRegion (p x) : (f.withRegion p).value? x = f.value? x := rfl
@[simp, grind =] theorem body_withRegion (p) : (f.withRegion p).body = f.body := rfl
@[simp, grind =] theorem op?_withArg (b t i x) : (f.withArg b t i).op? x = f.op? x := rfl
@[simp, grind =] theorem block?_withArg (b t i x) : (f.withArg b t i).block? x = f.block? x := rfl
@[simp, grind =] theorem region?_withArg (b t i x) :
    (f.withArg b t i).region? x = f.region? x := rfl
@[simp, grind =] theorem body_withArg (b t i) : (f.withArg b t i).body = f.body := rfl

/-- There is no node at the end of a table. -/
@[grind =>] theorem op?_size {x : OpId} {d : Op} (h : f.op? x = some d) : x.index < f.ops.size :=
  (Array.getElem?_eq_some_iff.mp h).1

@[grind =>] theorem block?_size {x : BlockId} {d : Block} (h : f.block? x = some d) :
    x.index < f.blocks.size :=
  (Array.getElem?_eq_some_iff.mp h).1

@[grind =>] theorem region?_size {x : RegionId} {d : Region} (h : f.region? x = some d) :
    x.index < f.regions.size :=
  (Array.getElem?_eq_some_iff.mp h).1

@[grind =>] theorem value?_size {x : ValueId} {d : ValueInfo} (h : f.value? x = some d) :
    x.index < f.values.size :=
  (Array.getElem?_eq_some_iff.mp h).1

/-! ## Splitting a block -/

/-- The function in which all but the first `n` ops of a block, the list `tail`, have been moved to
a new block. -/
def splitBlock (f : Func) (b : BlockId) (n : Nat) (tail : List OpId) : Func :=
  (((f.atBlock b fun d => { d with ops := d.ops.take n }).withBlock []).setOpOwners tail
    (some ⟨f.blocks.size⟩)).atBlock ⟨f.blocks.size⟩ fun d => { d with ops := tail }

section

variable (b : BlockId) (n : Nat) (tail : List OpId)

theorem op?_splitBlock (x : OpId) : (f.splitBlock b n tail).op? x =
    if x ∈ tail then (f.op? x).map fun d => { d with parent := some ⟨f.blocks.size⟩ }
    else f.op? x := by
  rw [splitBlock, op?_atBlock, op?_setOpOwners]
  rfl

theorem kind_splitBlock (x : OpId) :
    ((f.splitBlock b n tail).op? x).map (·.kind) = (f.op? x).map (·.kind) := by
  rw [op?_splitBlock]
  split
  · rw [Option.map_map]
    rfl
  · rfl

@[simp] theorem region?_splitBlock (r : RegionId) :
    (f.splitBlock b n tail).region? r = f.region? r := by
  simp [splitBlock]

@[simp] theorem body_splitBlock : (f.splitBlock b n tail).body = f.body := by simp [splitBlock]

variable {f b n tail} {bd : Block}

theorem block?_splitBlock (hb : f.block? b = some bd) (c : BlockId) :
    (f.splitBlock b n tail).block? c =
      if c = ⟨f.blocks.size⟩ then some { args := [], ops := tail }
      else if c = b then some { bd with ops := bd.ops.take n } else f.block? c := by
  have hsize : (f.atBlock b fun d => { d with ops := d.ops.take n }).blocks.size =
    f.blocks.size := by
    simp [atBlock]
  rw [splitBlock, block?_atBlock, block?_setOpOwners, block?_withBlock, hsize, block?_atBlock]
  split
  · rfl
  · split
    · rename_i hc
      rw [hc, hb]
      rfl
    · rfl

end

end Unnest.Func
