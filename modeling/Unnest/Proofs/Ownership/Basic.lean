import Unnest.Proofs.Lookup
/-!
# Ownership

Ownership is written down twice: an owner lists what it owns, and what is owned records its owner.
`Func.Owned` says that the two agree. A region lists exactly the blocks whose parent it is, each
once, and a block its ops; what is dead has no owner and owns nothing; and every result and argument
records the op or block it belongs to, with its place there.

`Func.Tied` adds what keeps this true from one edit to the next, and leaves room for what an erasure
has not come to yet.
-/

namespace Unnest

namespace Func

/-! ## Reading the two sides -/

/-- The blocks that a region lists. -/
@[grind =] def blocksIn (f : Func) (r : RegionId) : List BlockId :=
  match f.region? r with
  | some d => d.blocks
  | none => []

/-- The ops that a block lists. -/
@[grind =] def opsIn (f : Func) (b : BlockId) : List OpId :=
  match f.block? b with
  | some d => d.ops
  | none => []

/-- The region that a block records as its owner. -/
@[grind =] def ownerOfBlock (f : Func) (b : BlockId) : Option RegionId :=
  match f.block? b with
  | some d => d.parent
  | none => none

/-- The block that an op records as its owner. -/
@[grind =] def ownerOfOp (f : Func) (op : OpId) : Option BlockId :=
  match f.op? op with
  | some d => d.parent
  | none => none

theorem opsIn_splitBlock {f : Func} {b : BlockId} {bd : Block} {n : Nat} {tail : List OpId}
    (hb : f.block? b = some bd) (c : BlockId) :
    (f.splitBlock b n tail).opsIn c =
      if c = ⟨f.blocks.size⟩ then tail else if c = b then bd.ops.take n else f.opsIn c := by
  rw [opsIn, block?_splitBlock hb]
  grind

/-- Every node is listed by its owner alone, and once; dead nodes own nothing and are not owned;
every value knows where it is defined. -/
structure Owned (f : Func) : Prop where
  blocks (r : RegionId) (b : BlockId) : b ∈ f.blocksIn r ↔ f.ownerOfBlock b = some r
  blocksOnce (r : RegionId) : (f.blocksIn r).Nodup
  ops (b : BlockId) (op : OpId) : op ∈ f.opsIn b ↔ f.ownerOfOp op = some b
  opsOnce (b : BlockId) : (f.opsIn b).Nodup
  deadOp (op : OpId) (d : Op) : f.op? op = some d → d.live = false →
    d.parent = none ∧ ∀ r ∈ d.regions, f.blocksIn r = []
  deadBlock (b : BlockId) (d : Block) : f.block? b = some d → d.live = false →
    d.parent = none ∧ d.ops = []
  result (op : OpId) (d : Op) (i : Nat) (v : ValueId) : f.op? op = some d →
    d.results[i]? = some v → (f.value? v).map (·.origin) = some (.opResult op i)
  arg (b : BlockId) (d : Block) (i : Nat) (v : ValueId) : f.block? b = some d →
    d.args[i]? = some v → (f.value? v).map (·.origin) = some (.blockArg b i)

/-- Ownership with two exceptions: the ops in `strays` still record an owner that does not list
them any more, and the regions in `full` may hold blocks although their op is dead. -/
structure Tied (f : Func) (strays : OpId → Prop) (full : RegionId → Prop) : Prop where
  blocks (r : RegionId) (b : BlockId) : b ∈ f.blocksIn r ↔ f.ownerOfBlock b = some r
  blocksOnce (r : RegionId) : (f.blocksIn r).Nodup
  ops (b : BlockId) (op : OpId) : op ∈ f.opsIn b ↔ f.ownerOfOp op = some b ∧ ¬ strays op
  opsOnce (b : BlockId) : (f.opsIn b).Nodup
  deadOp (op : OpId) (d : Op) : f.op? op = some d → d.live = false →
    d.parent = none ∧ ∀ r ∈ d.regions, ¬ full r → f.blocksIn r = []
  deadBlock (b : BlockId) (d : Block) : f.block? b = some d → d.live = false →
    d.parent = none ∧ d.ops = []
  result (op : OpId) (d : Op) (i : Nat) (v : ValueId) : f.op? op = some d →
    d.results[i]? = some v → (f.value? v).map (·.origin) = some (.opResult op i)
  arg (b : BlockId) (d : Block) (i : Nat) (v : ValueId) : f.block? b = some d →
    d.args[i]? = some v → (f.value? v).map (·.origin) = some (.blockArg b i)
  /-- A region belongs to one op. -/
  region (op : OpId) (d : Op) (r : RegionId) : f.op? op = some d → r ∈ d.regions →
    (f.region? r).map (·.parent) = some (some op)
  body : (f.region? f.body).map (·.parent) = some none

/-- Ownership without exceptions. -/
abbrev Sound (f : Func) : Prop := f.Tied (fun _ => False) (fun _ => False)

theorem Tied.owned {f : Func} (h : f.Sound) : f.Owned where
  blocks := h.blocks
  blocksOnce := h.blocksOnce
  ops b op := by simpa using h.ops b op
  opsOnce := h.opsOnce
  deadOp op d hd hl := by simpa using h.deadOp op d hd hl
  deadBlock := h.deadBlock
  result := h.result
  arg := h.arg

end Func

namespace Func.Tied

variable {f : Func} {X : OpId → Prop} {Y : RegionId → Prop}

variable {op : OpId} {b : BlockId} {bd : Block} {g : Block → Block}

/-- Placing an op without an owner in a live block. -/
theorem placeOp {d : Op} {l : List OpId} (h : f.Sound) (hd : f.op? op = some d)
    (hp : d.parent = none) (hl : d.live = true) (hb : f.block? b = some bd) (hbl : bd.live = true)
    (hg : g bd = { bd with ops := l }) (hm : ∀ x, x ∈ l ↔ x = op ∨ x ∈ bd.ops) (hn : l.Nodup) :
    ((f.atOp op fun d => { d with parent := some b }).atBlock b g).Sound where
  blocks r x := by have := h.blocks r x; grind
  blocksOnce r := by have := h.blocksOnce r; grind
  ops c x := by have := h.ops c x; grind
  opsOnce c := by have := h.opsOnce c; grind
  deadOp x := by have := h.deadOp x; grind
  deadBlock x := by have := h.deadBlock x; grind
  result x := by have := h.result x; grind
  arg x := by have := h.arg x; grind
  region x := by have := h.region x; grind
  body := by have := h.body; grind

/-- Taking an op out of its block. -/
theorem removeOp {l : List OpId} (h : f.Sound) (ho : f.ownerOfOp op = some b)
    (hb : f.block? b = some bd) (hg : g bd = { bd with ops := l })
    (hm : ∀ x, x ∈ l ↔ x ∈ bd.ops ∧ x ≠ op) (hn : l.Nodup) :
    ((f.atBlock b g).atOp op fun d => { d with parent := none }).Sound where
  blocks r x := by have := h.blocks r x; grind
  blocksOnce r := by have := h.blocksOnce r; grind
  ops c x := by have := h.ops c x; grind
  opsOnce c := by have := h.opsOnce c; grind
  deadOp x := by have := h.deadOp x; grind
  deadBlock x := by have := h.deadBlock x; have := h.ops b op; grind
  result x := by have := h.result x; grind
  arg x := by have := h.arg x; grind
  region x := by have := h.region x; grind
  body := by have := h.body; grind

variable {r : RegionId}

/-- Giving blocks without an owner to a region that does not belong to a dead op. -/
theorem placeBlocks {rd : Region} {l l' : List BlockId} {g : Region → Region} (h : f.Sound)
    (hl : ∀ b ∈ l, ∃ d, f.block? b = some d ∧ d.parent = none ∧ d.live = true)
    (hr : f.region? r = some rd) (hlive : ∀ op d, f.op? op = some d → r ∈ d.regions → d.live = true)
    (hg : g rd = { rd with blocks := l' }) (hm : ∀ x, x ∈ l' ↔ x ∈ l ∨ x ∈ rd.blocks)
    (hn : l'.Nodup) : ((f.setOwners l (some r)).atRegion r g).Sound where
  blocks q x := by have := h.blocks q x; grind
  blocksOnce q := by have := h.blocksOnce q; grind
  ops c x := by have := h.ops c x; grind
  opsOnce c := by have := h.opsOnce c; grind
  deadOp x := by have := h.deadOp x; grind
  deadBlock x := by have := h.deadBlock x; grind
  result x := by have := h.result x; grind
  arg x := by have := h.arg x; grind
  region x := by have := h.region x; grind
  body := by have := h.body; grind

/-- Taking all blocks out of a region. -/
theorem takeBlocks (h : f.Tied X Y) :
    ((f.atRegion r fun d => { d with blocks := [] }).setOwners (f.blocksIn r) none).Tied X Y where
  blocks q x := by have := h.blocks q x; have := h.blocks r x; grind
  blocksOnce q := by have := h.blocksOnce q; grind
  ops c x := by have := h.ops c x; grind
  opsOnce c := by have := h.opsOnce c; grind
  deadOp x := by have := h.deadOp x; grind
  deadBlock x := by have := h.deadBlock x; grind [Option.map_eq_some_iff]
  result x := by have := h.result x; grind
  arg x := by have := h.arg x; grind [Option.map_eq_some_iff]
  region x := by have := h.region x; grind
  body := by have := h.body; grind

/-- Taking one block out of a region. -/
theorem removeBlock {rd : Region} {l : List BlockId} {g : Region → Region} (h : f.Sound)
    (ho : f.ownerOfBlock b = some r) (hr : f.region? r = some rd)
    (hg : g rd = { rd with blocks := l }) (hm : ∀ x, x ∈ l ↔ x ∈ rd.blocks ∧ x ≠ b) (hn : l.Nodup) :
    ((f.atRegion r g).atBlock b fun d => { d with parent := none }).Sound where
  blocks q x := by have := h.blocks q x; grind
  blocksOnce q := by have := h.blocksOnce q; grind
  ops c x := by have := h.ops c x; grind
  opsOnce c := by have := h.opsOnce c; grind
  deadOp x := by have := h.deadOp x; have := h.blocks r b; grind
  deadBlock x := by have := h.deadBlock x; grind
  result x := by have := h.result x; grind
  arg x := by have := h.arg x; grind
  region x := by have := h.region x; grind
  body := by have := h.body; grind

/-- Moving the ops of a block that stand behind a place to a new block without an owner. -/
theorem moveTail {c : BlockId} {pre post : List OpId} {f₁ : Func} (h : f.Sound)
    (hb : f.block? b = some bd) (hops : bd.ops = pre ++ post) (hbl : bd.live = true)
    (hg : g bd = { bd with ops := pre }) (hf₁ : f₁ = (f.atBlock b g).withBlock [])
    (hc : c = ⟨f.blocks.size⟩) :
    ((f₁.setOpOwners post (some c)).atBlock c fun d => { d with ops := post }).Sound := by
  have hsize : (f.atBlock b g).blocks.size = f.blocks.size := by simp [atBlock]
  have hne : b ≠ c := by have := f.block?_size hb; grind
  have hnew : f.block? c = none := by simp [block?, hc]
  have hpost : ∀ x, x ∈ post → f.ownerOfOp x = some b := fun x hx => by
    have := h.ops b x
    grind
  have hnone : ∀ x, f.ownerOfOp x ≠ some c := fun x hx => by
    have := h.ops c x
    grind
  have hsplit : (pre ++ post).Nodup := by have := h.opsOnce b; grind
  have hdis : ∀ x ∈ post, x ∉ pre := fun x hx hx' => List.disjoint_of_nodup_append hsplit hx' hx
  have hpre := hsplit.of_append_left
  have hpostn := hsplit.of_append_right
  subst hf₁
  have hvalue : ∀ v, ((f.atBlock b g).withBlock []).value? v = f.value? v := fun v => by
    rw [value?_withBlock]
    split
    · rfl
    · simp_all [value?, atBlock]
  generalize hf' : (((f.atBlock b g).withBlock []).setOpOwners post (some c)).atBlock c
    (fun d => { d with ops := post }) = f'
  have hlist : ∀ e, f'.opsIn e = if e = c then post else if e = b then pre else f.opsIn e := by
    grind
  have howner : ∀ x, f'.ownerOfOp x = if x ∈ post then some c else f.ownerOfOp x := by
    intro x
    cases hx : f.op? x <;> grind
  have hop : ∀ x d, f'.op? x = some d → ∃ d₀, f.op? x = some d₀ ∧ d₀.live = d.live ∧
      d₀.regions = d.regions ∧ d₀.results = d.results ∧ (d.parent = d₀.parent ∨ x ∈ post) := by
    intro x
    cases hx : f.op? x <;> grind
  constructor
  · intro q x; have := h.blocks q x; grind
  · intro q; have := h.blocksOnce q; grind
  · intro e x; have := h.ops e x; have := h.ops b x; grind
  · intro e; have := h.opsOnce e; grind
  · intro x; have := h.deadOp x; have := hpost x; grind
  · intro x; have := h.deadBlock x; grind
  · intro x; have := h.result x; grind
  · intro x; have := h.arg x; grind
  · intro x; have := h.region x; grind
  · have := h.body; grind

/-! ## New nodes -/

theorem withRegion (h : f.Sound) (parent : Option OpId) : (f.withRegion parent).Sound := by
  have hnew : f.region? ⟨f.regions.size⟩ = none := by simp [region?]
  constructor
  · intro q x; have := h.blocks q x; grind
  · intro q; have := h.blocksOnce q; grind
  · intro c x; have := h.ops c x; grind
  · intro c; have := h.opsOnce c; grind
  · intro x; have := h.deadOp x; grind
  · intro x; have := h.deadBlock x; grind
  · intro x; have := h.result x; grind
  · intro x; have := h.arg x; grind
  · intro x; have := h.region x; grind
  · have := h.body; grind

theorem withBlock (h : f.Sound) (tys : List Ty) : (f.withBlock tys).Sound := by
  have hnew : f.block? ⟨f.blocks.size⟩ = none := by simp [block?]
  have hlist : ∀ b, (f.withBlock tys).opsIn b = f.opsIn b := by grind
  have howner : ∀ b, (f.withBlock tys).ownerOfBlock b = f.ownerOfBlock b := by grind
  have hvalue : ∀ v o, (f.value? v).map (·.origin) = some o →
      ((f.withBlock tys).value? v).map (·.origin) = some o := by
    intro v o hv
    obtain ⟨info, hi, -⟩ := Option.map_eq_some_iff.mp hv
    rwa [value?_withBlock, if_pos (f.value?_size hi)]
  refine ⟨fun q x => ?_, h.blocksOnce, fun c x => ?_, fun c => ?_, h.deadOp, fun x => ?_,
    fun x d i v hd hv => hvalue v _ (h.result x d i v hd hv), fun x d i v hd hv => ?_, h.region,
    h.body⟩
  · rw [howner]
    exact h.blocks q x
  · rw [hlist]
    exact h.ops c x
  · rw [hlist]
    exact h.opsOnce c
  · have := h.deadBlock x
    grind
  · rw [block?_withBlock] at hd
    split at hd
    · cases hd
      rename_i hx
      obtain ⟨hi, rfl⟩ := List.getElem?_eq_some_iff.mp hv
      simp only [List.length_map, List.length_range] at hi
      simp [value?_withBlock, hx, hi]
    · exact hvalue v _ (h.arg x d i v hd hv)

theorem withOp (h : f.Sound) (kind : OpKind) (operands : List ValueId) (tys : List Ty)
    (count : Nat) : (f.withOp kind operands tys count).Sound := by
  have hnew : f.op? ⟨f.ops.size⟩ = none := by simp [op?]
  have hlist : ∀ r, (f.withOp kind operands tys count).blocksIn r = f.blocksIn r := by
    intro r
    have hr : r.index < f.regions.size ∨ f.region? r = none := by
      by_cases hr : r.index < f.regions.size <;> simp_all [region?]
    grind [region?_withOp]
  have howner : ∀ b, (f.withOp kind operands tys count).ownerOfOp b = f.ownerOfOp b := by grind
  have hvalue : ∀ v o, (f.value? v).map (·.origin) = some o →
      ((f.withOp kind operands tys count).value? v).map (·.origin) = some o := by
    intro v o hv
    obtain ⟨info, hi, -⟩ := Option.map_eq_some_iff.mp hv
    rwa [value?_withOp, if_pos (f.value?_size hi)]
  have hregion : ∀ r o, (f.region? r).map (·.parent) = some o →
      ((f.withOp kind operands tys count).region? r).map (·.parent) = some o := by
    intro r o hr
    obtain ⟨d, hd, -⟩ := Option.map_eq_some_iff.mp hr
    rwa [region?_withOp, if_pos (f.region?_size hd)]
  refine ⟨fun q x => ?_, fun q => ?_, fun c x => ?_, h.opsOnce, fun x d hd hl => ?_, h.deadBlock,
    fun x d i v hd hv => ?_, fun x d i v hd hv => hvalue v _ (h.arg x d i v hd hv),
    fun x d r hd hr => ?_, hregion _ _ h.body⟩
  · rw [hlist]
    exact h.blocks q x
  · rw [hlist]
    exact h.blocksOnce q
  · rw [howner]
    exact h.ops c x
  · simp only [hlist]
    have := h.deadOp x
    grind
  · rw [op?_withOp] at hd
    split at hd
    · cases hd
      rename_i hx
      obtain ⟨hi, rfl⟩ := List.getElem?_eq_some_iff.mp hv
      simp only [List.length_map, List.length_range] at hi
      simp [value?_withOp, hx, hi]
    · exact hvalue v _ (h.result x d i v hd hv)
  · rw [op?_withOp] at hd
    split at hd
    · cases hd
      rename_i hx
      obtain ⟨i, hi, rfl⟩ := List.mem_map.mp hr
      simp [region?_withOp, List.mem_range.mp hi, hx]
    · exact hregion r _ (h.region x d r hd hr)

/-- A new last argument of a block. -/
theorem addArg {d : Block} (h : f.Sound) (hb : f.block? b = some d) (ty : Ty) :
    ((f.withArg b ty d.args.length).atBlock b fun d =>
      { d with args := d.args ++ [⟨f.values.size⟩] }).Sound := by
  have hnew : f.value? ⟨f.values.size⟩ = none := by simp [value?]
  constructor
  · intro q x; have := h.blocks q x; grind
  · intro q; have := h.blocksOnce q; grind
  · intro c x; have := h.ops c x; grind
  · intro c; have := h.opsOnce c; grind
  · intro x; have := h.deadOp x; grind
  · intro x; have := h.deadBlock x; grind
  · intro x; have := h.result x; grind
  · intro x; have := h.arg x; grind
  · intro x; have := h.region x; grind
  · have := h.body; grind

/-! ## Dying nodes -/

/-- An op without an owner dies; what its regions hold is still to be cleared. -/
theorem killOp {d : Op} (h : f.Tied X Y) (hd : f.op? op = some d) (hp : d.parent = none) :
    (f.atOp op fun d => { d with live := false }).Tied X fun r => Y r ∨ r ∈ d.regions where
  blocks q x := by have := h.blocks q x; grind
  blocksOnce q := by have := h.blocksOnce q; grind
  ops c x := by have := h.ops c x; grind
  opsOnce c := by have := h.opsOnce c; grind
  deadOp x := by have := h.deadOp x; grind
  deadBlock x := by have := h.deadBlock x; grind
  result x := by have := h.result x; grind
  arg x := by have := h.arg x; grind
  region x := by have := h.region x; grind
  body := by have := h.body; grind

/-- A block without an owner dies; its ops are strays now. -/
theorem killBlock {d : Block} (h : f.Tied X Y) (hd : f.block? b = some d) (hp : d.parent = none) :
    ((f.atBlock b fun d => { d with live := false }).atBlock b fun d =>
      { d with ops := [] }).Tied (fun x => X x ∨ x ∈ d.ops) Y where
  blocks q x := by have := h.blocks q x; grind
  blocksOnce q := by have := h.blocksOnce q; grind
  ops c x := by have := h.ops c x; have := h.ops b x; grind
  opsOnce c := by have := h.opsOnce c; grind
  deadOp x := by have := h.deadOp x; grind
  deadBlock x := by have := h.deadBlock x; grind
  result x := by have := h.result x; grind
  arg x := by have := h.arg x; grind
  region x := by have := h.region x; grind
  body := by have := h.body; grind

/-- A stray does not record its former owner any more. -/
theorem forget (h : f.Tied (fun x => X x ∨ x = op) Y) (hl : ∀ b, op ∉ f.opsIn b) :
    (f.atOp op fun d => { d with parent := none }).Tied X Y where
  blocks q x := by have := h.blocks q x; grind
  blocksOnce q := by have := h.blocksOnce q; grind
  ops c x := by
    have := h.ops c x
    have := hl c
    cases hx : f.op? x <;> grind
  opsOnce c := by have := h.opsOnce c; grind
  deadOp x := by have := h.deadOp x; cases hx : f.op? x <;> grind
  deadBlock x := by have := h.deadBlock x; grind
  result x := by have := h.result x; cases hx : f.op? x <;> grind
  arg x := by have := h.arg x; grind
  region x := by have := h.region x; cases hx : f.op? x <;> grind
  body := by have := h.body; grind

/-- A region that is empty needs no exception. -/
theorem emptied (h : f.Tied X fun q => Y q ∨ q = r) (hr : f.blocksIn r = []) : f.Tied X Y where
  blocks := h.blocks
  blocksOnce := h.blocksOnce
  ops := h.ops
  opsOnce := h.opsOnce
  deadOp x := by have := h.deadOp x; grind
  deadBlock := h.deadBlock
  result := h.result
  arg := h.arg
  region := h.region
  body := h.body

/-- What an op owns and what owns it. -/
def tie (d : Op) : List ValueId × List RegionId × Option BlockId × Bool :=
  (d.results, d.regions, d.parent, d.live)

/-- Ownership does not depend on what the ops do and read. -/
theorem congr {f' : Func} (h : f.Tied X Y)
    (hop : ∀ x, (f'.op? x).map tie = (f.op? x).map tie) (hb : f'.block? = f.block?)
    (hr : f'.region? = f.region?) (hv : f'.value? = f.value?) (hbody : f'.body = f.body) :
    f'.Tied X Y := by
  have back : ∀ x d', f'.op? x = some d' → ∃ d, f.op? x = some d ∧ d.results = d'.results ∧
      d.regions = d'.regions ∧ d.parent = d'.parent ∧ d.live = d'.live := by
    intro x d' hd
    have := hop x
    rw [hd] at this
    obtain ⟨d, hd, ht⟩ := Option.map_eq_some_iff.mp this.symm
    simp only [tie, Prod.mk.injEq] at ht
    exact ⟨d, hd, ht⟩
  have howner : ∀ x, f'.ownerOfOp x = f.ownerOfOp x := by
    intro x
    have := hop x
    unfold ownerOfOp
    cases h₁ : f'.op? x <;> cases h₂ : f.op? x <;> simp_all [tie]
  have hlist : ∀ r, f'.blocksIn r = f.blocksIn r := by
    intro r
    rw [blocksIn, hr, blocksIn]
  constructor
  · intro r b
    rw [hlist, ownerOfBlock, hb]
    exact h.blocks r b
  · intro r
    rw [hlist]
    exact h.blocksOnce r
  · intro b op
    rw [howner, opsIn, hb]
    exact h.ops b op
  · intro b
    rw [opsIn, hb]
    exact h.opsOnce b
  · intro op d' hd hl
    obtain ⟨d, hd, -, hr', hp, hl'⟩ := back op d' hd
    have := h.deadOp op d hd (hl'.trans hl)
    rw [← hp, ← hr']
    exact ⟨this.1, fun r hr hY => (hlist r).trans (this.2 r hr hY)⟩
  · intro b d hd
    rw [hb] at hd
    exact h.deadBlock b d hd
  · intro op d' i v hd hi
    obtain ⟨d, hd, hres, -⟩ := back op d' hd
    rw [hv]
    exact h.result op d i v hd (hres ▸ hi)
  · intro b d i v hd hi
    rw [hb] at hd
    rw [hv]
    exact h.arg b d i v hd hi
  · intro op d' r hd hmem
    obtain ⟨d, hd, -, hr', -⟩ := back op d' hd
    rw [hr]
    exact h.region op d r hd (hr' ▸ hmem)
  · rw [hr, hbody]
    exact h.body

/-- Changing an op apart from what it owns and what owns it. -/
theorem inertOp {id : OpId} {g : Op → Op} (h : f.Tied X Y) (hg : ∀ d, tie (g d) = tie d) :
    (f.atOp id g).Tied X Y := by
  refine h.congr (fun x => ?_) rfl rfl rfl rfl
  rw [op?_atOp]
  split
  · cases f.op? x <;> simp [hg]
  · rfl

end Func.Tied

end Unnest
