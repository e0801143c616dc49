import Unnest.Proofs.Tidy.Gathering
import Unnest.Tidy.Prune
/-!
# Blocks pruned

A block of the body is dead if it is not the entry, no block of the body leads to it and it is empty
or a branch or an `unreachable` alone (`Func.deadAt`, the blocks that `Func.deadBlocks` finds).
`Pruned` says what is left when some blocks of the body have been taken out: all else is as before.
`Pruned.erase` takes out one block more, `Pruned.eraseAll` those of one round, and `prune_pruned` is
what all rounds leave. Every round but the last takes out a block, so the rounds suffice.
-/

namespace Unnest

namespace OpKind

theorem successors_of_not_isTerminator {k : OpKind} (hk : k.isTerminator = false) :
    k.successors = [] := by
  cases k with
  | construct c => cases c <;> first | rfl | cases hk
  | instr i => rfl
  | transfer t => cases hk

/-- A branch, or an `unreachable`. -/
def isStub : OpKind → Bool
  | .transfer (.br _) | .transfer .unreachable => true
  | _ => false

end OpKind

namespace Func

variable {f : Func} {x : OpId} {d : Op} {b c : BlockId} {bd : Block}

theorem block_of_eq (hb : f.block? b = some bd) : f.block b = .ok bd := by
  rw [Func.block, hb]
  rfl

theorem kind_of_eq (hd : f.op? x = some d) : f.kind x = .ok d.kind := by
  rw [Func.kind, Func.op, hd]
  rfl

/-! ## Dead blocks -/

/-- The blocks that the last op of a block names. -/
def leadsTo (f : Func) (b : BlockId) : List BlockId :=
  (((f.opsIn b).getLast?.bind f.op?).map fun d => d.kind.successors).getD []

/-- Nothing would be lost with the block. -/
def trivialAt (f : Func) (b : BlockId) : Bool :=
  match f.opsIn b with
  | [] => true
  | [x] => f.kindIs OpKind.isStub x
  | _ => false

/-- The block is to be pruned. -/
def deadAt (f : Func) (b : BlockId) : Bool :=
  decide ((f.blocksIn f.body).head? ≠ some b) &&
    (f.blocksIn f.body).all (fun c => decide (b ∉ f.leadsTo c)) && f.trivialAt b

/-- The blocks of the body that nothing needs: nothing would be lost with them, and no others lead
to them. The entry is always needed. -/
inductive Unneeded (f : Func) : BlockId → Prop
  | intro {b : BlockId} (hb : b ∈ f.blocksIn f.body) (hentry : (f.blocksIn f.body).head? ≠ some b)
      (htrivial : f.trivialAt b = true)
      (hleads : ∀ c ∈ f.blocksIn f.body, b ∈ f.leadsTo c → Unneeded f c) : Unneeded f b

theorem Unneeded.mem {b : BlockId} (h : f.Unneeded b) : b ∈ f.blocksIn f.body := by
  cases h with
  | intro hb => exact hb

theorem successors_eq (hb : f.block? b = some bd) (hops : ∀ x ∈ bd.ops, ∃ d, f.op? x = some d) :
    f.successors b = .ok (f.leadsTo b) := by
  have hin : f.opsIn b = bd.ops := by rw [opsIn, hb]
  rw [leadsTo, successors, terminator, block_of_eq hb, hin]
  cases hlast : bd.ops.getLast? with
  | none => simp [hlast, Bind.bind, Except.bind, Pure.pure, Except.pure]
  | some x =>
    obtain ⟨d, hd⟩ := hops x (List.mem_of_getLast? hlast)
    cases hterm : d.kind.isTerminator with
    | true => simp [hlast, kind_of_eq hd, hterm, hd, Bind.bind, Except.bind, Pure.pure, Except.pure]
    | false =>
      simp [hlast, kind_of_eq hd, hterm, hd, OpKind.successors_of_not_isTerminator hterm, Bind.bind,
        Except.bind, Pure.pure, Except.pure]

theorem isTrivial_eq (hb : f.block? b = some bd) (hops : ∀ x ∈ bd.ops, ∃ d, f.op? x = some d) :
    f.isTrivial b = .ok (f.trivialAt b) := by
  have hin : f.opsIn b = bd.ops := by rw [opsIn, hb]
  rw [trivialAt, isTrivial, block_of_eq hb, hin]
  cases hl : bd.ops with
  | nil => simp [hl, Bind.bind, Except.bind, Pure.pure, Except.pure]
  | cons x l =>
    cases l with
    | cons y l => simp [hl, Bind.bind, Except.bind, Pure.pure, Except.pure]
    | nil =>
      obtain ⟨d, hd⟩ := hops x (by simp [hl])
      simp only [hl, kind_of_eq hd, kindIs, hd, Bind.bind, Except.bind, Pure.pure, Except.pure,
        Option.map_some, Option.getD_some]
      unfold OpKind.isStub
      split <;> simp_all

/-- Noting an edge. -/
theorem mem_addEdge {source target b c : BlockId} (t : Table BlockId (List BlockId)) :
    c ∈ ((addEdge source t target).get? b).getD [] ↔
      c ∈ (t.get? b).getD [] ∨ c = source ∧ b = target := by
  unfold addEdge
  dsimp only
  split
  case isTrue hmem =>
    rw [Table.get?_insert]
    by_cases hb : target = b
    · subst hb
      rw [if_pos rfl, Option.getD_some]
      constructor
      · exact .inl
      · rintro (hc | ⟨rfl, -⟩)
        · exact hc
        · exact hmem
    · rw [if_neg hb]
      simp [Ne.symm hb]
  case isFalse hmem =>
    rw [Table.get?_insert]
    by_cases hb : target = b
    · subst hb
      simp
    · rw [if_neg hb]
      simp [Ne.symm hb]

theorem mem_foldl_addEdge {source b c : BlockId} (targets : List BlockId)
    (t : Table BlockId (List BlockId)) :
    c ∈ ((targets.foldl (addEdge source) t).get? b).getD [] ↔
      c ∈ (t.get? b).getD [] ∨ c = source ∧ b ∈ targets := by
  induction targets generalizing t with
  | nil => simp
  | cons target targets ih =>
    rw [List.foldl_cons, ih, mem_addEdge, List.mem_cons]
    tauto

theorem mem_foldl_edges {b c : BlockId} (l : List BlockId) (t : Table BlockId (List BlockId)) :
    c ∈ ((l.foldl (fun t a => (f.leadsTo a).foldl (addEdge a) t) t).get? b).getD [] ↔
      c ∈ (t.get? b).getD [] ∨ c ∈ l ∧ b ∈ f.leadsTo c := by
  induction l generalizing t with
  | nil => simp
  | cons a l ih =>
    rw [List.foldl_cons, ih, mem_foldl_addEdge, List.mem_cons, or_assoc, or_and_right]
    refine or_congr_right (or_congr_left (and_congr_right ?_))
    rintro rfl
    exact Iff.rfl

theorem getD_foldl_nil {b : BlockId} (l : List BlockId) {t : Table BlockId (List BlockId)}
    (ht : (t.get? b).getD [] = []) :
    ((l.foldl (fun t a => t.insert a []) t).get? b).getD [] = [] := by
  induction l generalizing t with
  | nil => exact ht
  | cons a l ih =>
    refine ih ?_
    rw [Table.get?_insert]
    split
    · rfl
    · exact ht

theorem bodyBlocks_eq (hbody : ∃ d, f.region? f.body = some d) :
    f.bodyBlocks = .ok (f.blocksIn f.body) := by
  obtain ⟨d, hd⟩ := hbody
  rw [bodyBlocks, Func.region, blocksIn, hd]
  rfl

namespace Listed

variable (h : f.Listed)

include h

theorem ops_of_eq (hb : b ∈ f.blocksIn f.body) (hbd : f.block? b = some bd) :
    ∀ x ∈ bd.ops, ∃ d, f.op? x = some d := by
  intro x hx
  refine h.ops b hb x ?_
  rwa [opsIn, hbd]

/-- The table of predecessors holds the edges. -/
theorem exists_predecessors : ∃ t, f.predecessors = .ok t ∧
    ∀ b c, c ∈ (t.get? b).getD [] ↔ c ∈ f.blocksIn f.body ∧ b ∈ f.leadsTo c := by
  have hsuccessors : ∀ c ∈ f.blocksIn f.body, f.successors c = .ok (f.leadsTo c) := by
    intro c hc
    obtain ⟨bd, hbd⟩ := h.blocks c hc
    exact successors_eq hbd (h.ops_of_eq hc hbd)
  refine ⟨(f.blocksIn f.body).foldl (fun t a => (f.leadsTo a).foldl (addEdge a) t)
    ((f.blocksIn f.body).foldl (fun t a => t.insert a []) {}), ?_, fun b c => ?_⟩
  · rw [predecessors, bodyBlocks_eq h.body]
    refine foldlM_of_ok (fun c hc t => ?_) _
    rw [hsuccessors c hc]
    rfl
  · rw [mem_foldl_edges, getD_foldl_nil _ rfl]
    simp

/-- The blocks that one round prunes. -/
theorem deadBlocks_eq : f.deadBlocks = .ok ((f.blocksIn f.body).filter f.deadAt) := by
  obtain ⟨t, ht, hedges⟩ := h.exists_predecessors
  have hentry : f.entryBlock = .ok (f.blocksIn f.body).head? := by
    rw [entryBlock, bodyBlocks_eq h.body]
    rfl
  have horphan : ∀ b, ((t.get? b).getD []).isEmpty =
      (f.blocksIn f.body).all fun c => decide (b ∉ f.leadsTo c) := by
    intro b
    rw [Bool.eq_iff_iff, List.isEmpty_iff, List.eq_nil_iff_forall_not_mem, List.all_eq_true]
    refine forall_congr' fun c => ?_
    rw [hedges, not_and, decide_eq_true_iff]
  rw [deadBlocks, ht, hentry, bodyBlocks_eq h.body]
  change List.filterM f.isTrivial ((f.blocksIn f.body).filter _) = _
  rw [filterM_of_ok (q := f.trivialAt), List.filter_filter]
  · refine congrArg Except.ok (List.filter_congr fun b _ => ?_)
    rw [deadAt, horphan, Bool.and_comm]
    congr 2
    exact decide_eq_decide.mpr ne_comm
  · intro b hb
    have hb := (List.mem_filter.mp hb).1
    obtain ⟨bd, hbd⟩ := h.blocks b hb
    exact isTrivial_eq hbd (h.ops_of_eq hb hbd)

end Listed

end Func

/-! ## Taking out a block -/

/-- What is left of an op that dies. -/
def Op.dead (d : Op) : Op := { d with parent := none, live := false }

/-- Nothing is nested in the ops of blocks that nothing needs. -/
def Func.BareStubs (f : Func) : Prop :=
  ∀ b, f.Unneeded b → ∀ x ∈ f.opsIn b, ∀ d, f.op? x = some d → f.Bare d

/-- What is left of a block that dies. -/
def Block.dead (d : Block) : Block := { d with ops := [], parent := none, live := false }

namespace Edit

variable {f : Func} {b : BlockId} {bd : Block} {r : RegionId} {rd : Region}

/-- Ops with nothing below them die. -/
theorem killOps_gives {l : List OpId} (hl : ∀ x ∈ l, ∃ d, f.op? x = some d ∧ f.Bare d) :
    ∃ f', (l.forM fun x => do setOpParent x none; killOp clearRegion x) f = .ok () f' ∧
      f' = { f with ops := f'.ops } ∧
      ∀ x, f'.op? x = if x ∈ l then (f.op? x).map Op.dead else f.op? x := by
  induction l generalizing f with
  | nil => exact ⟨f, rfl, rfl, by simp⟩
  | cons x l ih =>
    obtain ⟨⟨d, hd, hbare⟩, hl⟩ := List.forall_mem_cons.mp hl
    have hparent : (f.atOp x fun d => { d with parent := none }).op? x =
        some { d with parent := none } := by
      rw [Func.op?_atOp, if_pos rfl, hd]
      rfl
    have hlive : ((f.atOp x fun d => { d with parent := none }).atOp x fun d =>
        { d with live := false }).op? x = some d.dead := by
      rw [Func.op?_atOp, if_pos rfl, hparent]
      rfl
    have hone : (do setOpParent x none; killOp clearRegion x : Edit Unit) f = .ok ()
        ((f.atOp x fun d => { d with parent := none }).atOp x
          fun d => { d with live := false }) := by
      refine (bind_of_ok (modifyOp_eq hd _)).trans ?_
      refine (bind_of_ok (modifyOp_eq hparent _)).trans ?_
      refine (bind_of_ok (getOp_eq hlive)).trans ?_
      exact clearAll_of_empty hbare
    have hops (y : OpId) : ((f.atOp x fun d => { d with parent := none }).atOp x fun d =>
        { d with live := false }).op? y = if y = x then (f.op? y).map Op.dead else f.op? y := by
      by_cases hy : y = x
      · subst hy
        rw [hlive, if_pos rfl, hd]
        rfl
      · rw [Func.op?_atOp, if_neg hy, Func.op?_atOp, if_neg hy, if_neg hy]
    obtain ⟨f', hrun, hsame, hops'⟩ := ih (f := (f.atOp x fun d => { d with parent := none }).atOp x
        fun d => { d with live := false }) (by
      intro y hy
      obtain ⟨d', hd', hbare'⟩ := hl y hy
      rw [hops, hd']
      split
      · exact ⟨d'.dead, rfl, hbare'⟩
      · exact ⟨d', rfl, hbare'⟩)
    refine ⟨f', (bind_of_ok hone).trans hrun, hsame, fun y => ?_⟩
    rw [hops', hops]
    by_cases hy : y = x
    · subst hy
      cases f.op? y <;> simp [Op.dead]
    · simp [hy]

/-- A block is taken out of the region that lists it, and dies with its ops. -/
theorem eraseBlock_gives (hb : f.block? b = some bd) (hp : bd.parent = some r)
    (hr : f.region? r = some rd) (hmem : b ∈ rd.blocks)
    (hops : ∀ x ∈ bd.ops, ∃ d, f.op? x = some d ∧ f.Bare d) :
    ∃ f', eraseBlock b f = .ok () f' ∧
      f' = { f with ops := f'.ops, blocks := f'.blocks, regions := f'.regions } ∧
      (∀ q, f'.region? q =
        if q = r then some { rd with blocks := rd.blocks.erase b } else f.region? q) ∧
      (∀ c, f'.block? c = if c = b then some bd.dead else f.block? c) ∧
      ∀ x, f'.op? x = if x ∈ bd.ops then (f.op? x).map Op.dead else f.op? x := by
  have hidx : rd.blocks.findIdx? (· == b) = some (rd.blocks.idxOf b) :=
    List.findIdx?_eq_some_iff_findIdx_eq.mpr ⟨List.idxOf_lt_length_iff.mpr hmem, rfl⟩
  have hplace : placeOfBlock b f = .ok (r, rd.blocks.idxOf b) f := by
    unfold placeOfBlock
    refine (bind_of_ok (getBlock_eq hb)).trans ?_
    simp only [hp]
    refine (bind_of_ok (getRegion_eq hr)).trans ?_
    simp only [hidx]
    rfl
  obtain ⟨f₁, hf₁⟩ : ∃ g, g = f.atRegion r fun d =>
    { d with blocks := d.blocks.eraseIdx (rd.blocks.idxOf b) } := ⟨_, rfl⟩
  obtain ⟨f₂, hf₂⟩ : ∃ g, g = f₁.atBlock b fun d => { d with parent := none } := ⟨_, rfl⟩
  obtain ⟨f₃, hf₃⟩ : ∃ g, g = f₂.atBlock b fun d => { d with live := false } := ⟨_, rfl⟩
  obtain ⟨f₄, hf₄⟩ : ∃ g, g = f₃.atBlock b fun d => { d with ops := [] } := ⟨_, rfl⟩
  have hb₁ : f₁.block? b = some bd := by rw [hf₁, Func.block?_atRegion, hb]
  have hb₂ : f₂.block? b = some { bd with parent := none } := by
    rw [hf₂, Func.block?_atBlock, if_pos rfl, hb₁]
    rfl
  have hb₃ : f₃.block? b = some { bd with parent := none, live := false } := by
    rw [hf₃, Func.block?_atBlock, if_pos rfl, hb₂]
    rfl
  have hblocks₄ (c : BlockId) : f₄.block? c = if c = b then some bd.dead else f.block? c := by
    rw [hf₄, Func.block?_atBlock]
    by_cases hc : c = b
    · subst hc
      rw [if_pos rfl, if_pos rfl, hb₃]
      rfl
    · rw [if_neg hc, if_neg hc, hf₃, Func.block?_atBlock, if_neg hc, hf₂, Func.block?_atBlock,
        if_neg hc, hf₁, Func.block?_atRegion]
  have hops₄ (x : OpId) : f₄.op? x = f.op? x := by rw [hf₄, hf₃, hf₂, hf₁]; rfl
  have hregions₄ (q : RegionId) : f₄.region? q =
      if q = r then some { rd with blocks := rd.blocks.erase b } else f.region? q := by
    have hregions₁ : f₄.region? q = f₁.region? q := by
      rw [hf₄, hf₃, hf₂]
      rfl
    rw [hregions₁, hf₁, Func.region?_atRegion]
    split
    case isTrue heq => rw [heq, hr, Option.map_some, List.erase_eq_eraseIdx_of_idxOf rfl]
    case isFalse => rfl
  obtain ⟨f', hrun, hsame, hops'⟩ := killOps_gives (f := f₄) (l := bd.ops) fun x hx => by
    obtain ⟨d, hd, hbare⟩ := hops x hx
    refine ⟨d, (hops₄ x).trans hd, fun q hq => ?_⟩
    -- the region of the block is not one of an op with nothing below it
    have hne : q ≠ r := by
      rintro rfl
      have hempty := hbare q hq
      rw [hr, Option.map_some, Option.some.injEq] at hempty
      simp [hempty] at hmem
    rw [hregions₄, if_neg hne]
    exact hbare q hq
  refine ⟨f', ?_, ?_, fun q => ?_, fun c => ?_, fun x => by rw [hops', hops₄]⟩
  · refine (bind_of_ok (getBlock_eq hb)).trans ?_
    rw [hp]
    refine (bind_of_ok hplace).trans ?_
    refine (bind_of_ok (modifyRegion_eq hr _)).trans ?_
    rw [← hf₁]
    refine (bind_of_ok (modifyBlock_eq hb₁ _)).trans ?_
    rw [← hf₂]
    refine (bind_of_ok (modifyBlock_eq hb₂ _)).trans ?_
    rw [← hf₃]
    refine (bind_of_ok (getBlock_eq hb₃)).trans ?_
    refine (bind_of_ok (modifyBlock_eq hb₃ _)).trans ?_
    rw [← hf₄]
    exact hrun
  · rw [hsame, hf₄, hf₃, hf₂, hf₁]
    rfl
  · have hregions : f'.region? q = f₄.region? q := by
      rw [hsame]
      rfl
    rw [hregions, hregions₄]
  · have hblocks : f'.block? c = f₄.block? c := by
      rw [hsame]
      rfl
    rw [hblocks, hblocks₄]

end Edit

/-! ## Rounds -/

namespace Tidy

/-- The blocks in `gone` have been taken out of the body of `f`. -/
structure Pruned (f : Func) (gone : List BlockId) (f' : Func) : Prop where
  outline : f' = { f with ops := f'.ops, blocks := f'.blocks, regions := f'.regions }
  once : gone.Nodup
  listed : ∀ b ∈ gone, b ∈ f.blocksIn f.body
  trivial : ∀ b ∈ gone, f.trivialAt b = true
  entry : ∀ b ∈ (f.blocksIn f.body).head?, b ∉ gone
  region? (r : RegionId) : f'.region? r = (f.region? r).map fun d =>
    if r = f.body then { d with blocks := d.blocks.filter (· ∉ gone) } else d
  block? (b : BlockId) : f'.block? b = (f.block? b).map fun d => if b ∈ gone then d.dead else d
  op? (x : OpId) : f'.op? x = (f.op? x).map fun d => if x ∈ gone.flatMap f.opsIn then d.dead else d

namespace Pruned

variable {f f' : Func} {gone : List BlockId} {b : BlockId}

theorem start (f : Func) : Pruned f [] f where
  outline := rfl
  once := .nil
  listed := by simp
  trivial := by simp
  entry := by simp
  region? r := by
    cases f.region? r with
    | none => rfl
    | some d => simp
  block? b := by simp
  op? x := by simp

section

variable (h : Pruned f gone f')

include h

theorem body : f'.body = f.body := by rw [h.outline]

theorem value? (v : ValueId) : f'.value? v = f.value? v := by
  unfold Func.value?
  rw [h.outline]

theorem blocksIn_body : f'.blocksIn f'.body = (f.blocksIn f.body).filter (· ∉ gone) := by
  unfold Func.blocksIn
  rw [h.body, h.region?]
  cases f.region? f.body with
  | none => rfl
  | some d => simp

theorem mem_blocksIn : b ∈ f'.blocksIn f'.body ↔ b ∈ f.blocksIn f.body ∧ b ∉ gone := by
  rw [h.blocksIn_body, List.mem_filter, decide_eq_true_iff]

theorem head?_blocksIn : (f'.blocksIn f'.body).head? = (f.blocksIn f.body).head? := by
  rw [h.blocksIn_body]
  have hentry := h.entry
  cases hblocks : f.blocksIn f.body with
  | nil => rfl
  | cons e blocks =>
    rw [List.filter_cons_of_pos (by simpa using hentry e (by simp [hblocks]))]
    rfl

theorem opsIn (hb : b ∉ gone) : f'.opsIn b = f.opsIn b := by
  unfold Func.opsIn
  rw [h.block?]
  cases f.block? b with
  | none => rfl
  | some d => simp [hb]

/-- The ops of the blocks that are left have not changed. -/
theorem op?_of_mem (hf : f.Owned) (hb : b ∉ gone) {x : OpId} (hx : x ∈ f.opsIn b) :
    f'.op? x = f.op? x := by
  have hnot : x ∉ gone.flatMap f.opsIn := by
    intro hmem
    obtain ⟨c, hc, hx'⟩ := List.mem_flatMap.mp hmem
    have howner := (hf.ops b x).mp hx
    rw [(hf.ops c x).mp hx', Option.some.injEq] at howner
    exact hb (howner ▸ hc)
  rw [h.op?]
  simp [hnot]

theorem leadsTo (hf : f.Owned) (hb : b ∉ gone) : f'.leadsTo b = f.leadsTo b := by
  unfold Func.leadsTo
  rw [h.opsIn hb]
  cases hlast : (f.opsIn b).getLast? with
  | none => rfl
  | some x =>
    rw [Option.bind_some, Option.bind_some, h.op?_of_mem hf hb (List.mem_of_getLast? hlast)]

theorem trivialAt (hf : f.Owned) (hb : b ∉ gone) : f'.trivialAt b = f.trivialAt b := by
  unfold Func.trivialAt
  rw [h.opsIn hb]
  split
  case h_1 => rfl
  case h_2 x hx => rw [Func.kindIs, Func.kindIs, h.op?_of_mem hf hb (by simp [hx])]
  case h_3 => rfl

theorem isListed (hf : f.Owned) (hbody : ∃ d, f.region? f.body = some d) : f'.Listed where
  body := by
    obtain ⟨d, hd⟩ := hbody
    rw [h.body, h.region?, hd]
    exact ⟨_, rfl⟩
  blocks b hb := by
    obtain ⟨d, hd⟩ := hf.exists_block (h.mem_blocksIn.mp hb).1
    rw [h.block?, hd]
    exact ⟨_, rfl⟩
  ops b hb x hx := by
    rw [h.opsIn (h.mem_blocksIn.mp hb).2] at hx
    rw [h.op?_of_mem hf (h.mem_blocksIn.mp hb).2 hx]
    exact hf.exists_op hx

/-- What had nothing below it still has nothing. -/
theorem bare {d : Op} (hd : f.Bare d) : f'.Bare d := by
  intro r hr
  have hempty := hd r hr
  rw [h.region?]
  cases hrd : f.region? r with
  | none => simp [hrd] at hempty
  | some rd =>
    rw [hrd, Option.map_some, Option.some.injEq] at hempty
    rw [Option.map_some, Option.map_some]
    split <;> simp [hempty]

/-- A block that has not been taken out is dead if no block that is left leads to it. -/
theorem deadAt_iff (hf : f.Owned) (hb : b ∉ gone) : f'.deadAt b = true ↔
    (f.blocksIn f.body).head? ≠ some b ∧
      (∀ c ∈ f.blocksIn f.body, c ∉ gone → b ∉ f.leadsTo c) ∧ f.trivialAt b = true := by
  rw [Func.deadAt, Bool.and_eq_true, Bool.and_eq_true, decide_eq_true_iff, h.head?_blocksIn,
    h.trivialAt hf hb, List.all_eq_true, and_assoc]
  refine and_congr_right fun _ => and_congr_left fun _ => ?_
  constructor
  · intro hall c hc hgone
    have := hall c (h.mem_blocksIn.mpr ⟨hc, hgone⟩)
    rwa [decide_eq_true_iff, h.leadsTo hf hgone] at this
  · intro hall c hc
    obtain ⟨hc, hgone⟩ := h.mem_blocksIn.mp hc
    rw [decide_eq_true_iff, h.leadsTo hf hgone]
    exact hall c hc hgone

/-- One block more is taken out. -/
theorem erase (hf : f.Owned) (hb : b ∈ f.blocksIn f.body) (hgone : b ∉ gone)
    (hentry : (f.blocksIn f.body).head? ≠ some b) (htrivial : f.trivialAt b = true)
    (hbare : ∀ x ∈ f.opsIn b, ∀ d, f.op? x = some d → f.Bare d) :
    ∃ f'', Edit.eraseBlock b f' = .ok () f'' ∧ Pruned f (gone ++ [b]) f'' := by
  obtain ⟨bd, hbd⟩ := hf.exists_block hb
  have hin : f.opsIn b = bd.ops := by rw [Func.opsIn, hbd]
  obtain ⟨rd, hrd⟩ : ∃ rd, f.region? f.body = some rd := by
    cases hrd : f.region? f.body with
    | none => simp [Func.blocksIn, hrd] at hb
    | some rd => exact ⟨rd, rfl⟩
  have hblocks : f.blocksIn f.body = rd.blocks := by rw [Func.blocksIn, hrd]
  have hparent : bd.parent = some f.body := by
    have howner := (hf.blocks f.body b).mp hb
    rwa [Func.ownerOfBlock, hbd] at howner
  have hbd' : f'.block? b = some bd := by rw [h.block?, hbd, Option.map_some, if_neg hgone]
  have hrd' : f'.region? f.body =
      some { rd with blocks := rd.blocks.filter (· ∉ gone) } := by
    rw [h.region?, hrd, Option.map_some, if_pos rfl]
  have hops : ∀ x ∈ bd.ops, ∃ d, f'.op? x = some d ∧ f'.Bare d := by
    intro x hx
    rw [← hin] at hx
    obtain ⟨d, hd⟩ := hf.exists_op hx
    exact ⟨d, (h.op?_of_mem hf hgone hx).trans hd, h.bare (hbare x hx d hd)⟩
  obtain ⟨f'', hrun, houtline, hregions, hblocks', hops'⟩ := Edit.eraseBlock_gives hbd' hparent hrd'
    (by simpa [hblocks.symm] using ⟨hb, hgone⟩) hops
  refine ⟨f'', hrun, ?_, ?_, ?_, ?_, ?_, fun r => ?_, fun c => ?_, fun x => ?_⟩
  · rw [houtline, h.outline]
  · exact List.nodup_append.mpr ⟨h.once, List.nodup_singleton b, by
      rintro c hc _ hc' rfl
      exact hgone (List.mem_singleton.mp hc' ▸ hc)⟩
  · rintro c hc
    obtain hc | hc := List.mem_append.mp hc
    · exact h.listed c hc
    · exact List.mem_singleton.mp hc ▸ hb
  · rintro c hc
    obtain hc | hc := List.mem_append.mp hc
    · exact h.trivial c hc
    · exact List.mem_singleton.mp hc ▸ htrivial
  · intro c hc hmem
    obtain hmem | hmem := List.mem_append.mp hmem
    · exact h.entry c hc hmem
    · exact hentry (List.mem_singleton.mp hmem ▸ hc)
  · rw [hregions]
    split
    case isTrue heq =>
      subst heq
      have hnodup : rd.blocks.Nodup := hblocks ▸ hf.blocksOnce f.body
      have herase : (rd.blocks.filter (· ∉ gone)).erase b = rd.blocks.filter (· ∉ gone ++ [b]) := by
        rw [(hnodup.filter _).erase_eq_filter, List.filter_filter]
        exact List.filter_congr fun c _ => by simp [Bool.and_comm, bne, BEq.beq]
      rw [hrd, Option.map_some, herase]
    case isFalse hne =>
      rw [h.region?]
      cases f.region? r with
      | none => rfl
      | some d => simp [hne]
  · rw [hblocks']
    split
    case isTrue heq =>
      subst heq
      rw [hbd]
      simp
    case isFalse hne => simp [h.block?, hne]
  · have hmem : x ∈ (gone ++ [b]).flatMap f.opsIn ↔ x ∈ gone.flatMap f.opsIn ∨ x ∈ bd.ops := by
      rw [List.flatMap_append, List.mem_append, List.flatMap_singleton, hin]
    rw [hops', h.op?]
    cases f.op? x with
    | none => simp
    | some d =>
      simp only [Option.map_some, hmem]
      by_cases hx : x ∈ bd.ops
      · simp only [hx, or_true, if_true]
        split <;> rfl
      · simp [hx]

end

/-- The blocks of a round are taken out. -/
theorem eraseAll (hf : f.Owned) (hstubs : f.BareStubs) (h : Pruned f gone f')
    {l : List BlockId} (hl : l.Nodup) (hlisted : ∀ b ∈ l, b ∈ f.blocksIn f.body ∧ b ∉ gone ∧
      (f.blocksIn f.body).head? ≠ some b ∧ f.trivialAt b = true ∧ f.Unneeded b) :
    ∃ f'', l.forM Edit.eraseBlock f' = .ok () f'' ∧ Pruned f (gone ++ l) f'' := by
  induction l generalizing gone f' with
  | nil => exact ⟨f', rfl, by simpa using h⟩
  | cons b l ih =>
    obtain ⟨hnot, hl⟩ := List.nodup_cons.mp hl
    obtain ⟨⟨hb, hgone, hentry, htrivial, hneed⟩, hlisted⟩ := List.forall_mem_cons.mp hlisted
    obtain ⟨f₁, hrun₁, h₁⟩ := h.erase hf hb hgone hentry htrivial (hstubs b hneed)
    obtain ⟨f₂, hrun₂, h₂⟩ := ih h₁ hl fun c hc => by
      obtain ⟨hin, hfresh, hrest⟩ := hlisted c hc
      refine ⟨hin, fun hmem => ?_, hrest⟩
      obtain hmem | hmem := List.mem_append.mp hmem
      · exact hfresh hmem
      · exact hnot (List.mem_singleton.mp hmem ▸ hc)
    exact ⟨f₂, (bind_of_ok hrun₁).trans hrun₂, by simpa using h₂⟩

end Pruned

/-- No block that is left leads to one that is gone. -/
def Severed (f : Func) (gone : List BlockId) : Prop :=
  ∀ c ∈ f.blocksIn f.body, c ∉ gone → ∀ b ∈ f.leadsTo c, b ∉ gone

variable {f f' : Func} {gone : List BlockId}

/-- What rounds of pruning leave. -/
theorem Pruned.pruneRounds (hf : f.Owned) (hbody : ∃ d, f.region? f.body = some d)
    (hstubs : f.BareStubs) (h : Pruned f gone f')
    (hcut : Severed f gone) (hneed : ∀ b ∈ gone, f.Unneeded b) {rounds : Nat}
    (hrounds : (f'.blocksIn f'.body).length ≤ rounds) :
    ∃ more f'', Tidy.pruneRounds rounds f' = .ok more.length f'' ∧ Pruned f (gone ++ more) f'' ∧
      Severed f (gone ++ more) ∧ (∀ b ∈ gone ++ more, f.Unneeded b) ∧
      f''.deadBlocks = .ok [] := by
  induction rounds generalizing gone f' with
  | zero =>
    have hdead := (h.isListed hf hbody).deadBlocks_eq
    rw [List.eq_nil_of_length_eq_zero (Nat.le_zero.mp hrounds), List.filter_nil] at hdead
    exact ⟨[], f', (bind_of_ok (x := get) rfl).trans (bind_of_ok (read_of_ok hdead f')),
      by simpa using h, by simpa using hcut, by simpa using hneed, hdead⟩
  | succ rounds ih =>
    obtain ⟨dead, hdeads⟩ : ∃ dead, dead = (f'.blocksIn f'.body).filter f'.deadAt := ⟨_, rfl⟩
    have hdead : f'.deadBlocks = .ok dead := hdeads ▸ (h.isListed hf hbody).deadBlocks_eq
    by_cases hnil : dead = []
    · subst hnil
      exact ⟨[], f', (bind_of_ok (x := get) rfl).trans (bind_of_ok (read_of_ok hdead f')),
        by simpa using h, by simpa using hcut, by simpa using hneed, hdead⟩
    have hmem : ∀ b ∈ dead, b ∈ f.blocksIn f.body ∧ b ∉ gone ∧
        (f.blocksIn f.body).head? ≠ some b ∧
        (∀ c ∈ f.blocksIn f.body, c ∉ gone → b ∉ f.leadsTo c) ∧ f.trivialAt b = true := by
      intro b hb
      rw [hdeads] at hb
      obtain ⟨hb, hdeadAt⟩ := List.mem_filter.mp hb
      obtain ⟨hb, hgone⟩ := h.mem_blocksIn.mp hb
      exact ⟨hb, hgone, (h.deadAt_iff hf hgone).mp hdeadAt⟩
    have hnodup : dead.Nodup := by
      rw [hdeads, h.blocksIn_body]
      exact ((hf.blocksOnce f.body).filter _).filter _
    have hneed₁ : ∀ b ∈ gone ++ dead, f.Unneeded b := by
      intro b hb
      obtain hb | hb := List.mem_append.mp hb
      · exact hneed b hb
      obtain ⟨hin, -, hentry, hpreds, htrivial⟩ := hmem b hb
      refine .intro hin hentry htrivial fun c hc hleads => ?_
      by_contra hneeded
      exact hpreds c hc (fun hgone => hneeded (hneed c hgone)) hleads
    obtain ⟨f₁, hrun₁, h₁⟩ := h.eraseAll hf hstubs hnodup fun b hb =>
      ⟨(hmem b hb).1, (hmem b hb).2.1, (hmem b hb).2.2.1, (hmem b hb).2.2.2.2,
        hneed₁ b (List.mem_append_right _ hb)⟩
    have hcut₁ : Severed f (gone ++ dead) := by
      intro c hc hfresh b hb hgone
      rw [List.mem_append, not_or] at hfresh
      obtain hgone | hgone := List.mem_append.mp hgone
      · exact hcut c hc hfresh.1 b hb hgone
      · exact (hmem b hgone).2.2.2.1 c hc hfresh.1 hb
    have hfewer : (f₁.blocksIn f₁.body).length ≤ rounds := by
      have hleft : f₁.blocksIn f₁.body = (f'.blocksIn f'.body).filter (· ∉ dead) := by
        rw [h₁.blocksIn_body, h.blocksIn_body, List.filter_filter]
        exact List.filter_congr fun c _ => by simp [Bool.and_comm]
      obtain ⟨b, hb⟩ := List.exists_mem_of_ne_nil dead hnil
      have hless : (f₁.blocksIn f₁.body).length < (f'.blocksIn f'.body).length := by
        rw [hleft, List.length_filter_lt_length_iff_exists]
        exact ⟨b, (List.mem_filter.mp (hdeads ▸ hb)).1, by simpa using hb⟩
      omega
    obtain ⟨more, f₂, hrun₂, h₂, hcut₂, hneed₂, hdead₂⟩ := ih h₁ hcut₁ hneed₁ hfewer
    refine ⟨dead ++ more, f₂, ?_, by simpa using h₂, by simpa using hcut₂,
      by simpa using hneed₂, hdead₂⟩
    refine (bind_of_ok (x := get) rfl).trans ?_
    refine (bind_of_ok (read_of_ok hdead f')).trans ?_
    rw [List.length_append, if_neg (by simpa using hnil)]
    exact (bind_of_ok hrun₁).trans (bind_of_ok hrun₂)

/-- Pruning ends. It takes out the blocks that nothing needs: no block that is left leads to one of
them, and none of the blocks left is dead. -/
theorem prune_pruned (hf : f.Owned) (hbody : ∃ d, f.region? f.body = some d)
    (hstubs : f.BareStubs) :
    ∃ gone f', prune f = .ok gone.length f' ∧ Pruned f gone f' ∧ Severed f gone ∧
      (∀ b ∈ gone, f.Unneeded b) ∧ f'.deadBlocks = .ok [] := by
  obtain ⟨gone, f', hrun, h, hcut, hneed, hdead⟩ := (Pruned.start f).pruneRounds hf hbody hstubs
    (fun _ _ _ _ _ => List.not_mem_nil) (by simp) le_rfl
  refine ⟨gone, f', ?_, by simpa using h, by simpa using hcut, by simpa using hneed, hdead⟩
  refine (bind_of_ok (x := get) rfl).trans ?_
  exact (bind_of_ok (read_of_ok (Func.bodyBlocks_eq hbody) f)).trans hrun

/-- Where nothing is dead there is nothing to prune. -/
theorem prune_of_deadBlocks (hbody : ∃ d, f.region? f.body = some d) (h : f.deadBlocks = .ok []) :
    prune f = .ok 0 f := by
  have hrounds (rounds : Nat) : pruneRounds rounds f = .ok 0 f := by
    cases rounds <;> exact (bind_of_ok (x := get) rfl).trans (bind_of_ok (read_of_ok h f))
  exact (bind_of_ok (x := get) rfl).trans
    ((bind_of_ok (read_of_ok (Func.bodyBlocks_eq hbody) f)).trans (hrounds _))

end Tidy

end Unnest
