import Unnest.Proofs.Ownership.Edits
/-!
# Functions under construction

A builder only adds: an op at the end of a block, a block at the end of a region. `Func.Building`
says what holds of its function between two additions. Everything is alive and has an owner; a block
nested in another was made after it, so nothing lies within itself; and every op owns the regions of
its kind, filled, except for the ops in `under`, whose regions are still being filled.

What a statement builds leaves the ops that were there with their regions, and the regions with
their blocks (`Func.Later`). The body alone gets new blocks at any time.
-/

namespace Unnest

open Func

variable {f : Func} {α β : Type}

/-- How many blocks each region of a construct gets from a builder: at least and at most. -/
def Construct.regionSizes : Construct → List (Nat × Nat)
  | branch => [(1, 1), (0, 1)]
  | whileLoop _ | doWhile _ => [(1, 1), (1, 1)]
  | forLoop _ | tryCatch => [(1, 1), (1, 1), (1, 1)]
  | switch _ | labeled _ => [(1, 1)]
  | _ => []

/-- How many blocks each region of an op gets from a builder: at least and at most. -/
def OpKind.regionSizes : OpKind → List (Nat × Nat)
  | construct c => c.regionSizes
  | _ => []

namespace Func

/-- An op owns no regions, or the regions of its kind with their blocks. -/
def Shaped (f : Func) (d : Op) : Prop :=
  d.regions = [] ∨ List.Forall₂ (fun r size => size.1 ≤ (f.blocksIn r).length ∧
    (f.blocksIn r).length ≤ size.2) d.regions d.kind.regionSizes

/-- A function under construction; `under` holds of ops whose regions are still being filled. -/
structure Building (f : Func) (under : OpId → Prop) : Prop where
  sound : f.Sound
  liveOp (x : OpId) (d : Op) : f.op? x = some d → d.live = true
  liveBlock (b : BlockId) (d : Block) : f.block? b = some d → d.live = true
  placedOp (x : OpId) (d : Op) : f.op? x = some d → d.parent ≠ none
  placedBlock (b : BlockId) (d : Block) : f.block? b = some d → d.parent ≠ none
  nested (x : OpId) (d : Op) (b : BlockId) (r : RegionId) (c : BlockId) : f.op? x = some d →
    d.parent = some b → r ∈ d.regions → c ∈ f.blocksIn r → b.index < c.index
  regionsOnce (x : OpId) (d : Op) : f.op? x = some d → d.regions.Nodup
  shaped (x : OpId) (d : Op) : f.op? x = some d → ¬ under x → f.Shaped d

/-- The ops and regions that were there are kept; the regions in `filled` may have got blocks. -/
structure Later (f f' : Func) (filled : RegionId → Prop) : Prop where
  op (x : OpId) (d : Op) : f.op? x = some d →
    ∃ d', f'.op? x = some d' ∧ d'.regions = d.regions ∧ d'.kind = d.kind
  region (r : RegionId) (d : Region) : f.region? r = some d → r ≠ f.body → ¬ filled r →
    f'.region? r = some d
  body : f'.body = f.body

/-- Nothing but the body got blocks. -/
abbrev Kept (f f' : Func) : Prop := f.Later f' fun _ => False

namespace Later

variable {f₁ f₂ : Func} {p : RegionId → Prop}

theorem refl (f : Func) : f.Kept f := ⟨fun _ d h => ⟨d, h, rfl, rfl⟩, fun _ _ h _ _ => h, rfl⟩

theorem trans (h₁ : f.Later f₁ p) (h₂ : f₁.Later f₂ p) : f.Later f₂ p where
  op x d h := by
    obtain ⟨d₁, hd₁, hr₁, hk₁⟩ := h₁.op x d h
    obtain ⟨d₂, hd₂, hr₂, hk₂⟩ := h₂.op x d₁ hd₁
    exact ⟨d₂, hd₂, hr₂.trans hr₁, hk₂.trans hk₁⟩
  region r d h hb hp := h₂.region r d (h₁.region r d h hb hp) (h₁.body ▸ hb) hp
  body := h₂.body.trans h₁.body

theorem mono {q : RegionId → Prop} (h : f.Later f₁ p) (hq : ∀ r, p r → q r) : f.Later f₁ q :=
  ⟨h.op, fun r d hr hb hn => h.region r d hr hb fun hp => hn (hq r hp), h.body⟩

end Later

end Func

/-! ## The two additions -/

namespace Func.Building

variable {under : OpId → Prop}

theorem close {op : OpId} (h : f.Building fun x => under x ∨ x = op)
    (hs : ∀ d, f.op? op = some d → f.Shaped d) : f.Building under where
  sound := h.sound
  liveOp := h.liveOp
  liveBlock := h.liveBlock
  placedOp := h.placedOp
  placedBlock := h.placedBlock
  nested := h.nested
  regionsOnce := h.regionsOnce
  shaped x d hd hx := by
    by_cases hxo : x = op
    · exact hs d (hxo ▸ hd)
    · exact h.shaped x d hd (by simp [hx, hxo])

/-- An op with empty regions at the end of a block. -/
theorem addOp {f' : Func} {op : OpId} {d : Op} {b : BlockId} (h : f.Building under)
    (hs : f'.Sound) (hlive : d.live = true) (hp : d.parent = some b) (hn : d.regions.Nodup)
    (hop : ∀ x, f'.op? x = if x = op then some d else f.op? x)
    (hblock : ∀ c, f'.block? c =
      if c = b then (f.block? c).map fun e => { e with ops := e.ops ++ [op] } else f.block? c)
    (hlist : ∀ r, f'.blocksIn r = f.blocksIn r) (hempty : ∀ r ∈ d.regions, f.blocksIn r = []) :
    f'.Building fun x => under x ∨ x = op where
  sound := hs
  liveOp x := by have := h.liveOp x; grind
  liveBlock c := by have := h.liveBlock c; grind [Option.map_eq_some_iff]
  placedOp x := by have := h.placedOp x; grind
  placedBlock c := by have := h.placedBlock c; grind [Option.map_eq_some_iff]
  nested x := by have := h.nested x; grind
  regionsOnce x := by have := h.regionsOnce x; grind
  shaped x e he hx := by
    have := h.shaped x e
    simp only [Shaped, hlist] at this ⊢
    grind

/-- A block at the end of a region. -/
theorem addBlock {f' : Func} {b : BlockId} {bd : Block} {r : RegionId} (h : f.Building under)
    (hs : f'.Sound) (hb : b = ⟨f.blocks.size⟩) (hlive : bd.live = true) (hp : bd.parent = some r)
    (hop : ∀ x, f'.op? x = f.op? x)
    (hblock : ∀ c, f'.block? c = if c = b then some bd else f.block? c)
    (hlist : ∀ q, f'.blocksIn q = if q = r then f.blocksIn q ++ [b] else f.blocksIn q)
    (hr : ∀ x d, f.op? x = some d → r ∈ d.regions → under x) : f'.Building under where
  sound := hs
  liveOp x := by have := h.liveOp x; grind
  liveBlock c := by have := h.liveBlock c; grind
  placedOp x := by have := h.placedOp x; grind
  placedBlock c := by have := h.placedBlock c; grind
  nested x d c q e hd hc hq he := by
    have hlt : c.index < f.blocks.size := by
      rw [hop] at hd
      have := h.sound.ops c x
      cases hbc : f.block? c with
      | none => grind
      | some cd => exact f.block?_size hbc
    have := h.nested x d c q e
    grind
  regionsOnce x := by have := h.regionsOnce x; grind
  shaped x d hd hx := by
    rw [hop] at hd
    have := h.shaped x d hd hx
    have hne : ∀ q ∈ d.regions, f'.blocksIn q = f.blocksIn q := fun q hq => by grind
    refine this.imp id fun hf => ?_
    refine (List.forall₂_iff_zip.mpr ⟨(List.forall₂_iff_zip.mp hf).1, fun hm => ?_⟩)
    rw [hne _ (List.of_mem_zip hm).1]
    exact (List.forall₂_iff_zip.mp hf).2 hm

end Func.Building

/-- An op that was added, whose regions are there and empty. -/
structure Func.Added (f f' : Func) (op : OpId) (kind : OpKind) (count : Nat) : Prop where
  fresh : f.op? op = none
  regions : ∃ d, f'.op? op = some d ∧ d.kind = kind ∧ d.regions.length = count ∧
    d.regions.Nodup ∧ ∀ r ∈ d.regions, f'.region? r = some ⟨[], some op⟩ ∧ f.region? r = none

namespace Build

variable {under : OpId → Prop} {I : Func → Prop}

/-- The function after an op was added at the end of a block. -/
def afterOp (f : Func) (kind : OpKind) (operands : List ValueId) (tys : List Ty) (count : Nat)
    (span : Option Span) (b : BlockId) : Func :=
  (((f.withOp kind operands tys count).atOp ⟨f.ops.size⟩ fun d =>
    { d with span }).atOp ⟨f.ops.size⟩ fun d => { d with parent := some b }).atBlock b fun d =>
      { d with ops := d.ops ++ [⟨f.ops.size⟩] }

theorem afterOp_building {bd : Block} (h : f.Building under) (kind : OpKind)
    (operands : List ValueId) (tys : List Ty) (count : Nat) (span : Option Span) {b : BlockId}
    (hb : f.block? b = some bd) :
    (afterOp f kind operands tys count span b).Building (fun x => under x ∨ x = ⟨f.ops.size⟩) ∧
      f.Kept (afterOp f kind operands tys count span b) ∧
      f.Added (afterOp f kind operands tys count span b) ⟨f.ops.size⟩ kind count := by
  have hnew : f.op? ⟨f.ops.size⟩ = none := by simp [op?]
  generalize hop : (⟨f.ops.size⟩ : OpId) = op at hnew
  have hlist : ∀ r, (afterOp f kind operands tys count span b).blocksIn r = f.blocksIn r := by
    intro r
    have hr : r.index < f.regions.size ∨ f.region? r = none := by
      by_cases hr : r.index < f.regions.size <;> simp_all [region?]
    simp only [blocksIn, afterOp, region?_atBlock, region?_atOp, region?_withOp]
    grind
  have hfresh : ∀ r ∈ (List.range count).map fun i => RegionId.mk (f.regions.size + i),
      (afterOp f kind operands tys count span b).region? r = some ⟨[], some op⟩ ∧
        f.region? r = none := by
    intro r hr
    obtain ⟨i, hi, rfl⟩ := List.mem_map.mp hr
    refine ⟨?_, by simp [region?]⟩
    simp [afterOp, region?_withOp, List.mem_range.mp hi, hop]
  have hsound : (afterOp f kind operands tys count span b).Sound := by
    have h₁ : ((f.withOp kind operands tys count).atOp op fun d => { d with span }).Sound :=
      (h.sound.withOp ..).inertOp fun _ => rfl
    have hn : op ∉ bd.ops := fun hm => by
      have := h.sound.ops b op
      grind
    have hnodup := h.sound.opsOnce b
    rw [afterOp, hop]
    refine h₁.placeOp (d := ⟨kind, operands,
      (List.range tys.length).map fun i => ⟨f.values.size + i⟩,
      (List.range count).map fun i => ⟨f.regions.size + i⟩, none, span, true⟩)
      ?_ rfl rfl (by simpa using hb) (h.liveBlock b bd hb) rfl (by simp; tauto) (by grind)
    grind
  have hop' : ∀ x, (afterOp f kind operands tys count span b).op? x = if x = op then
      some ⟨kind, operands, (List.range tys.length).map fun i => ⟨f.values.size + i⟩,
        (List.range count).map fun i => ⟨f.regions.size + i⟩, some b, span, true⟩ else f.op? x := by
    intro x
    simp only [afterOp, hop]
    grind
  have hnodup : ((List.range count).map fun i => RegionId.mk (f.regions.size + i)).Nodup :=
    List.nodup_range.map fun _ _ h => by simpa using h
  refine ⟨h.addOp hsound rfl rfl hnodup hop' (fun c => ?_) hlist fun r hr => ?_, ⟨fun x d hx => ?_,
    fun r d hr hb hn => ?_, rfl⟩, hnew,
    ⟨_, by rw [hop', if_pos rfl], rfl, by simp, hnodup, fun r hr => ?_⟩⟩
  · simp only [afterOp, hop]
    grind
  · have := (hfresh r hr).2
    grind
  · refine ⟨d, ?_, rfl, rfl⟩
    grind
  · simp only [afterOp, region?_atBlock, region?_atOp, region?_withOp, f.region?_size hr, if_true]
    exact hr
  · exact hfresh r hr

/-- An op with empty regions at the cursor. -/
theorem opWithRegions_keeps {b : Builder} (h : b.func.Building under) (kind : OpKind)
    (operands : List ValueId) (tys : List Ty) (count : Nat) :
    Keeps (fun b => I b.func) (opWithRegions kind operands tys count) b fun op b' =>
      b'.func.Building (fun x => under x ∨ x = op) ∧ b.func.Kept b'.func ∧
        b.func.Added b'.func op kind count := by
  refine .builtBind (m := fun op f' => op = ⟨b.func.ops.size⟩ ∧
    f' = b.func.withOp kind operands tys count) (.of_ok rfl ⟨rfl, rfl⟩) ?_
  rintro op f₁ ⟨ho, hf₁⟩
  subst ho hf₁
  refine .get (.builtBind (m := fun _ f' => f' = (b.func.withOp kind operands tys count).atOp
    ⟨b.func.ops.size⟩ fun d => { d with span := b.span }) (.modifyOp fun _ _ => rfl)
    fun _ f₂ hf₂ => .get ?_)
  subst hf₂
  refine .builtBind (m := fun _ f' => f' = afterOp b.func kind operands tys count b.span b.cursor ∧
    ∃ bd, b.func.block? b.cursor = some bd) ?_ ?_
  · exact .bind (m := fun _ f' => f' = ((b.func.withOp kind operands tys count).atOp
      ⟨b.func.ops.size⟩ fun d => { d with span := b.span }).atOp ⟨b.func.ops.size⟩
      fun d => { d with parent := some b.cursor }) (.modifyOp fun _ _ => rfl)
      fun _ f₃ hf₃ => hf₃ ▸ .modifyBlock fun bd hbd => ⟨rfl, bd, hbd⟩
  · rintro _ f₃ ⟨rfl, bd, hbd⟩
    exact .pure (afterOp_building h kind operands tys count b.span hbd)

/-- The op that ends a block, if nothing ends it yet. -/
theorem endBlock_keeps {b : Builder} (h : b.func.Building under) (block : BlockId) (c : Construct)
    (operands : List ValueId) :
    Keeps (fun b => b.func.Sound) (endBlock block c operands) b fun _ b' =>
      b'.func.Building under ∧ b.func.Kept b'.func := by
  let placed := ((b.func.withOp (.construct c) operands [] 0).atOp ⟨b.func.ops.size⟩ fun d =>
    { d with parent := some block }).atBlock block
      fun d => { d with ops := d.ops ++ [⟨b.func.ops.size⟩] }
  have heq : placed.atOp ⟨b.func.ops.size⟩ (fun d => { d with span := b.span }) =
      afterOp b.func (.construct c) operands [] 0 b.span block :=
    congrArg (fun f' : Func => f'.atBlock block
      fun d => { d with ops := d.ops ++ [⟨b.func.ops.size⟩] })
      (atOp_comm (b.func.withOp (.construct c) operands [] 0)
        (g := fun d => { d with parent := some block }) (h := fun d => { d with span := b.span })
        ⟨b.func.ops.size⟩ fun _ => rfl)
  refine .builtBind (m := fun _ f' => f' = b.func)
    (.reads (Edit.terminator_reads block) h.sound fun _ _ => rfl) fun end? f₁ hf₁ => ?_
  subst hf₁
  split
  case isFalse => exact .pure ⟨h, .refl _⟩
  refine .builtBind (m := fun op f' => op = ⟨b.func.ops.size⟩ ∧ f' = placed ∧
    ∃ bd, b.func.block? block = some bd) ?_ ?_
  · refine .bind (m := fun op f' => op = ⟨b.func.ops.size⟩ ∧
      f' = b.func.withOp (.construct c) operands [] 0)
      (.of_ok rfl ⟨rfl, rfl⟩) ?_
    rintro op f₁ ⟨ho, hf₁⟩
    subst ho hf₁
    refine .bind (m := fun _ f' => f' = placed ∧ ∃ bd, b.func.block? block = some bd) ?_
      fun _ f₃ h₃ => .pure ⟨rfl, h₃⟩
    exact .bind (m := fun _ f' => f' = (b.func.withOp (.construct c) operands [] 0).atOp
      ⟨b.func.ops.size⟩ fun d => { d with parent := some block })
      (.modifyOp fun _ _ => rfl) fun _ f₃ hf₃ => hf₃ ▸ .modifyBlock fun bd hbd => ⟨rfl, bd, hbd⟩
  rintro op f₁ ⟨ho, hf₁, bd, hbd⟩
  subst ho hf₁
  refine .get (.built (m := fun _ f' => f' = placed.atOp ⟨b.func.ops.size⟩ fun d =>
    { d with span := b.span }) (.modifyOp fun _ _ => rfl) fun _ f' hf' => ?_)
  subst hf'
  rw [heq]
  obtain ⟨hbuild, hkept, -, d, hd, -, hlen, -⟩ :=
    afterOp_building h (.construct c) operands [] 0 b.span hbd
  refine ⟨hbuild.close fun e he => .inl ?_, hkept⟩
  obtain rfl := Option.some.inj (hd.symm.trans he)
  exact List.length_eq_zero_iff.mp hlen

/-- A new block at the end of a region of an op in `under`. -/
theorem appendNew_keeps (h : f.Building under) (tys : List Ty) (r : RegionId)
    (hr : ∀ x d, f.op? x = some d → r ∈ d.regions → under x) :
    Keeps I (Edit.appendBlock r ⟨f.blocks.size⟩) (f.withBlock tys) fun _ f' =>
      f'.Building under ∧ f.Later f' (· = r) ∧
        f'.blocksIn r = f.blocksIn r ++ [⟨f.blocks.size⟩] := by
  generalize hb : (⟨f.blocks.size⟩ : BlockId) = b
  generalize hf₁ : f.withBlock tys = f₁
  have hnew : f.block? b = none := by simp [block?, ← hb]
  refine Keeps.mono (P := fun _ f' => ∃ rd, f.region? r = some rd ∧
    f' = (f₁.setOwners [b] (some r)).atRegion r fun d => { d with blocks := d.blocks ++ [b] }) ?_ ?_
  · refine .bind (m := fun _ f' => f' = f₁.setOwners [b] (some r)) (.modifyBlock fun _ _ => rfl)
      fun _ f₂ hf₂ => hf₂ ▸ .modifyRegion fun rd hrd => ⟨rd, ?_, rfl⟩
    simpa [hf₂, ← hf₁] using hrd
  rintro _ f₂ ⟨rd, hrd, hf₂⟩
  have hblock : ∀ c, f₁.block? c = if c = b then
      some { args := (List.range tys.length).map fun i => ⟨f.values.size + i⟩ } else f.block? c :=
    fun c => by rw [← hf₁, ← hb, block?_withBlock]
  have hsound : f₂.Sound := by
    rw [hf₂]
    have hlist : ∀ x, x ∈ rd.blocks ↔ f.ownerOfBlock x = some r := fun x => by
      have := h.sound.blocks r x
      grind
    have hrd₁ : f₁.region? r = some rd := by simpa [← hf₁] using hrd
    refine Tied.placeBlocks (by rw [← hf₁]; exact h.sound.withBlock tys) (by simp [hblock]) hrd₁
      (fun x d hx _ => h.liveOp x d (by simpa [← hf₁] using hx)) rfl
      (fun x => by simp; tauto) ?_
    have := h.sound.blocksOnce r
    have := hlist b
    grind
  have hlist : ∀ q, f₂.blocksIn q = if q = r then f.blocksIn q ++ [b] else f.blocksIn q := by
    intro q
    simp only [blocksIn, hf₂, region?_atRegion, region?_setOwners, ← hf₁, region?_withBlock]
    by_cases hq : q = r
    · simp [hq, hrd]
    · simp [hq]
  let bd : Block :=
    ⟨[], (List.range tys.length).map fun i => ⟨f.values.size + i⟩, some r, true⟩
  have hblock₂ : ∀ c, f₂.block? c = if c = b then some bd else f.block? c := fun c => by
    rw [hf₂]
    grind
  refine ⟨h.addBlock hsound hb.symm rfl rfl (fun x => by simp [hf₂, ← hf₁]) hblock₂ hlist hr,
    ⟨fun x d hx => ⟨d, by simpa [hf₂, ← hf₁] using hx, rfl, rfl⟩, fun q d hq _ hqr => ?_,
      by simp [hf₂, ← hf₁]⟩, by simp [hlist]⟩
  simpa [hf₂, ← hf₁, region?_atRegion, hqr] using hq

end Build

end Unnest
