import Unnest.Proofs.Ownership.Edits
/-!
# Edits behind the search

The search for the next construct goes on where the last one was found. It misses nothing because
no edit of a lowering puts a construct before that place: `Func.Swept` says that none is left there
but dispatches that have been put off. Regions are laid out before blocks that come later
(`spliceBefore_retains`), new ops are no constructs (`emitBefore_retains` and the like), and an
erasure takes away only.

Nothing is asked of the regions that ops own. `Func.Filed` is all that is needed of ownership: an op
that a block lists is alive and in no other place.
-/

namespace Unnest

variable {σ α β γ : Type}

/-- What a computation leaves, if it ends, has the property if what it finds has it. -/
def Retains (I : σ → Prop) (x : EStateM Stop σ α) : Prop :=
  ∀ s, I s → Keeps (fun _ => True) x s fun _ s' => I s'

namespace Retains

variable {I : σ → Prop} {x : EStateM Stop σ α}

theorem ok {s s' : σ} {a : α} (h : Retains I x) (hs : I s) (hx : x s = .ok a s') : I s' :=
  (h s hs).ok hx

theorem pure (a : α) : Retains I (Pure.pure a : EStateM Stop σ α) := fun _ hs => .pure hs

theorem throw (e : Stop) : Retains I (MonadExcept.throw e : EStateM Stop σ α) :=
  fun _ _ => .throw trivial

theorem read (h : Reads x) : Retains I x := fun _ hs => .reads h trivial fun _ _ => hs

theorem bind {k : α → EStateM Stop σ β} (h : Retains I x) (hk : ∀ a, Retains I (k a)) :
    Retains I (x >>= k) :=
  fun s hs => .bind (h s hs) fun a s' hs' => hk a s' hs'

theorem and {J : σ → Prop} (h : Retains I x) (h' : Retains J x) : Retains (fun s => I s ∧ J s) x :=
  fun s hs => (h s hs.1).and (h' s hs.2)

theorem forM {l : List γ} {k : γ → EStateM Stop σ PUnit} (h : ∀ c ∈ l, Retains I (k c)) :
    Retains I (l.forM k) := by
  intro s hs
  refine (Keeps.forM (m := fun l' s => (∀ c ∈ l', c ∈ l) ∧ I s) ⟨fun _ hc => hc, hs⟩ ?_).mono
    fun _ _ h => h.2
  rintro c rest s' ⟨hl, hs'⟩
  exact (h c (hl c (by simp)) s' hs').mono fun _ _ hs'' => ⟨fun d hd => hl d (by simp [hd]), hs''⟩

end Retains

/-- A construct other than a dispatch, which is not put off. -/
def OpKind.isPending (k : OpKind) : Bool := k.isStructured && !k.isDispatch

namespace Func

/-- An op that a block lists is alive and records the block, and is listed once. -/
structure Filed (f : Func) : Prop where
  once (b : BlockId) : (f.opsIn b).Nodup
  op {b : BlockId} {x : OpId} : x ∈ f.opsIn b →
    ∃ d, f.op? x = some d ∧ d.parent = some b ∧ d.live = true

variable {f : Func}

theorem Owned.filed (h : f.Owned) : f.Filed where
  once := h.opsOnce
  op {b x} hx := by
    have ho := (h.ops b x).mp hx
    cases hd : f.op? x with
    | none => grind
    | some d =>
      have := h.deadOp x d hd
      exact ⟨d, rfl, by grind, by grind⟩

/-- No construct is left in the block but dispatches in `D`. -/
def Cleared (f : Func) (D : List OpId) (b : BlockId) : Prop :=
  ∀ x ∈ f.opsIn b, ∀ d, f.op? x = some d → d.kind.isStructured = true →
    d.kind.isDispatch = true ∧ x ∈ D

theorem Cleared.of_subset {f' : Func} {D : List OpId} {b c : BlockId} (h : f.Cleared D b)
    (hops : ∀ x ∈ f'.opsIn c, x ∈ f.opsIn b)
    (hkind : ∀ x, (f'.op? x).map (·.kind) = (f.op? x).map (·.kind)) : f'.Cleared D c := by
  intro x hx d hd hs
  have hk := hkind x
  rw [hd, Option.map_some, eq_comm, Option.map_eq_some_iff] at hk
  obtain ⟨d₀, hd₀, hk⟩ := hk
  rw [← hk] at hs ⊢
  exact h x (hops x hx) d₀ hd₀ hs

/-- No construct is left before the `i`th block of the body but dispatches in `D`, and the blocks in
`out` are not there. -/
structure Swept (f : Func) (i : Nat) (D : List OpId) (out : BlockId → Prop) : Prop where
  filed : f.Filed
  body : ∃ d, f.region? f.body = some d
  block {b : BlockId} : b ∈ f.blocksIn f.body → ∃ d, f.block? b = some d
  cleared {b : BlockId} : b ∈ (f.blocksIn f.body).take i → f.Cleared D b
  out {b : BlockId} : out b → b ∉ (f.blocksIn f.body).take i

/-- What of a kind matters to the search is as before, or the kind is no construct. -/
def Tamer (k k' : OpKind) : Prop :=
  k'.isStructured = true → k.isStructured = true ∧ k'.isDispatch = k.isDispatch

/-- A live op without an owner that is no construct. -/
def Unplaced (f : Func) (x : OpId) : Prop :=
  ∃ d, f.op? x = some d ∧ d.parent = none ∧ d.live = true ∧ d.kind.isStructured = false

namespace Swept

variable {f : Func} {i : Nat} {D : List OpId} {out : BlockId → Prop} (h : f.Swept i D out)

include h

theorem mono {out' : BlockId → Prop} (ho : ∀ b, out' b → out b) : f.Swept i D out' :=
  ⟨h.filed, h.body, h.block, h.cleared, fun hb => h.out (ho _ hb)⟩

variable {f' : Func}

/-- A change of ops that makes no construct of any. -/
theorem mapOps {g : OpId → Op → Op} (hop : ∀ x, f'.op? x = (f.op? x).map (g x))
    (hp : ∀ x d, (g x d).parent = d.parent ∧ (g x d).live = d.live)
    (hk : ∀ x d, Tamer d.kind (g x d).kind) (hb : f'.block? = f.block?)
    (hr : f'.region? = f.region?) (hbody : f'.body = f.body) : f'.Swept i D out := by
  have hops (b : BlockId) : f'.opsIn b = f.opsIn b := by rw [opsIn, hb, opsIn]
  have hblocks : f'.blocksIn f'.body = f.blocksIn f.body := by rw [blocksIn, hr, hbody, blocksIn]
  refine ⟨⟨fun b => hops b ▸ h.filed.once b, fun {b y} hy => ?_⟩, by rw [hr, hbody]; exact h.body,
    fun {b} hb' => ?_, fun {b} hb' y hy d hd hs => ?_, fun hb' => hblocks ▸ h.out hb'⟩
  · obtain ⟨d, hd, hparent, hlive⟩ := h.filed.op (hops b ▸ hy)
    exact ⟨g y d, by rw [hop, hd]; rfl, by rw [(hp y d).1, hparent], by rw [(hp y d).2, hlive]⟩
  · rw [hb]
    exact h.block (hblocks ▸ hb')
  · rw [hop, Option.map_eq_some_iff] at hd
    obtain ⟨d₀, hd₀, rfl⟩ := hd
    obtain ⟨hs₀, hdispatch⟩ := hk y d₀ hs
    rw [hdispatch]
    exact h.cleared (hblocks ▸ hb') y (hops b ▸ hy) d₀ hd₀ hs₀

variable {x : OpId}

theorem atOp {g : Op → Op} (hp : ∀ d, (g d).parent = d.parent ∧ (g d).live = d.live)
    (hk : ∀ d, Tamer d.kind (g d).kind) : (f.atOp x g).Swept i D out := by
  refine h.mapOps (g := fun y d => if y = x then g d else d) (fun y => ?_) (fun y d => ?_)
    (fun y d => ?_) rfl rfl rfl
  · rw [op?_atOp]
    split <;> simp
  · split
    · exact hp d
    · exact ⟨rfl, rfl⟩
  · split
    · exact hk d
    · exact fun hs => ⟨hs, rfl⟩

/-- A new block is not in the body. -/
theorem withBlock (tys : List Ty) :
    (f.withBlock tys).Swept i D fun b => out b ∨ b = ⟨f.blocks.size⟩ := by
  have hnew : f.block? ⟨f.blocks.size⟩ = none := by simp [block?]
  have hopsIn (b : BlockId) : (f.withBlock tys).opsIn b = f.opsIn b := by grind
  have hblocks : (f.withBlock tys).blocksIn = f.blocksIn := rfl
  have hout : ⟨f.blocks.size⟩ ∉ f.blocksIn f.body := fun hb => by
    obtain ⟨d, hd⟩ := h.block hb
    simp [hnew] at hd
  refine ⟨⟨fun b => ?_, fun {b x} hx => ?_⟩, h.body, fun {b} hb => ?_, fun {b} hb => ?_, ?_⟩
  · rw [hopsIn]
    exact h.filed.once b
  · rw [hopsIn] at hx
    exact h.filed.op hx
  · obtain ⟨d, hd⟩ := h.block hb
    exact ⟨d, by grind⟩
  · intro x hx
    rw [hopsIn] at hx
    exact h.cleared hb x hx
  · rintro b (hb | rfl)
    · exact h.out hb
    · exact fun hb => hout (List.mem_of_mem_take hb)

/-- A new op is in no block. -/
theorem withOp (kind : OpKind) (operands : List ValueId) (tys : List Ty) (count : Nat) :
    (f.withOp kind operands tys count).Swept i D out := by
  have hold {x : OpId} {b : BlockId} (hx : x ∈ f.opsIn b) :
      (f.withOp kind operands tys count).op? x = f.op? x := by
    obtain ⟨d, hd, -⟩ := h.filed.op hx
    grind
  have hopsIn : (f.withOp kind operands tys count).opsIn = f.opsIn := rfl
  obtain ⟨rd, hrd⟩ := h.body
  have hregion : (f.withOp kind operands tys count).region? f.body = f.region? f.body := by
    rw [region?_withOp, if_pos (f.region?_size hrd)]
  have hblocks : (f.withOp kind operands tys count).blocksIn f.body = f.blocksIn f.body := by
    rw [blocksIn, hregion, blocksIn]
  refine ⟨⟨h.filed.once, fun hx => ?_⟩, ⟨rd, hregion.trans hrd⟩, fun hb => ?_, fun hb => ?_,
    fun hb => ?_⟩
  · rw [hold hx]
    exact h.filed.op hx
  · exact h.block (hblocks ▸ hb)
  · intro x hx
    rw [hold hx]
    exact h.cleared (hblocks ▸ hb) x hx
  · rw [body_withOp, hblocks]
    exact h.out hb

variable {g : Block → Block} {b : BlockId} {bd : Block}

/-- An op without an owner is placed; a construct only in a block that is out of the way. -/
theorem placeOp {d : Op} {l : List OpId} (hd : f.op? x = some d) (hparent : d.parent = none)
    (hlive : d.live = true) (hkind : d.kind.isStructured = false ∨ out b)
    (hb : f.block? b = some bd) (hg : g bd = { bd with ops := l }) (hl : l.Perm (x :: bd.ops)) :
    ((f.atOp x fun d => { d with parent := some b }).atBlock b g).Swept i D out := by
  have hfree (c : BlockId) : x ∉ f.opsIn c := fun hx => by
    obtain ⟨d', hd', hp, -⟩ := h.filed.op hx
    grind
  have hops : f.opsIn b = bd.ops := by simp [opsIn, hb]
  have hopsIn (c : BlockId) :
      ((f.atOp x fun d => { d with parent := some b }).atBlock b g).opsIn c =
      if c = b then l else f.opsIn c := by grind
  have hop (y : OpId) : ((f.atOp x fun d => { d with parent := some b }).atBlock b g).op? y =
      if y = x then some { d with parent := some b } else f.op? y := by grind
  refine ⟨⟨fun c => ?_, fun {c y} hy => ?_⟩, h.body, fun {c} hc => ?_,
    fun {c} hc y hy e he hs => ?_,
    h.out⟩
  · rw [hopsIn]
    split
    · rw [hl.nodup_iff, List.nodup_cons, ← hops]
      exact ⟨hfree b, h.filed.once b⟩
    · exact h.filed.once c
  · rw [hopsIn] at hy
    rw [hop]
    have := hfree c
    have := @h.filed.op c y
    have := hl.mem_iff (a := y)
    grind
  · obtain ⟨cd, hcd⟩ := h.block hc
    grind
  · have := h.cleared hc y
    have := @h.out c
    have := hl.mem_iff (a := y)
    rw [hopsIn] at hy
    rw [hop] at he
    grind

/-- The ops of a block behind some place are moved to a new block, which is not in the body. What
it holds is cleared if the block was. -/
theorem splitBlock {n : Nat} {tail : List OpId} (hb : f.block? b = some bd)
    (htail : tail = bd.ops.drop n) :
    (f.splitBlock b n tail).Swept i D (fun c => out c ∨ c = ⟨f.blocks.size⟩) ∧
      (f.Cleared D b → (f.splitBlock b n tail).Cleared D ⟨f.blocks.size⟩) := by
  have hops : f.opsIn b = bd.ops.take n ++ tail := by simp [opsIn, hb, htail]
  have hblocks : (f.splitBlock b n tail).blocksIn f.body = f.blocksIn f.body := by
    simp [blocksIn]
  have hnew : ⟨f.blocks.size⟩ ∉ f.blocksIn f.body := fun hmem => by
    obtain ⟨d, hd⟩ := h.block hmem
    simp [block?] at hd
  obtain ⟨hlead, honce, hdisjoint⟩ := List.nodup_append.mp (hops ▸ h.filed.once b)
  have howner {x : OpId} (hx : x ∈ bd.ops.take n ++ tail) :
      ∃ d, f.op? x = some d ∧ d.parent = some b ∧ d.live = true := h.filed.op (hops ▸ hx)
  have hcleared {c e : BlockId} (he : f.Cleared D e)
      (hce : ∀ x ∈ (f.splitBlock b n tail).opsIn c, x ∈ f.opsIn e) :
      (f.splitBlock b n tail).Cleared D c :=
    he.of_subset hce fun x => f.kind_splitBlock ..
  refine ⟨⟨⟨fun c => ?_, fun {c x} hx => ?_⟩, by simpa using h.body, fun {c} hc => ?_,
    fun {c} hc => ?_, fun {c} hc => ?_⟩, fun hbc => hcleared hbc ?_⟩
  · rw [opsIn_splitBlock hb]
    split
    · exact honce
    · split
      · exact hlead
      · exact h.filed.once c
  · have := @h.filed.op c x
    have := @howner x
    rw [opsIn_splitBlock hb] at hx
    rw [op?_splitBlock]
    grind
  · rw [body_splitBlock, hblocks] at hc
    obtain ⟨cd, hcd⟩ := h.block hc
    rw [block?_splitBlock hb]
    grind
  · rw [body_splitBlock, hblocks] at hc
    have hc' : c ≠ ⟨f.blocks.size⟩ := fun hcf => hnew (hcf ▸ List.mem_of_mem_take hc)
    refine hcleared (h.cleared hc) fun x hx => ?_
    rw [opsIn_splitBlock hb] at hx
    grind
  · rw [body_splitBlock, hblocks]
    obtain hc | rfl := hc
    · exact h.out hc
    · exact fun hc => hnew (List.mem_of_mem_take hc)
  · intro x hx
    rw [opsIn_splitBlock hb, if_pos rfl] at hx
    simp [hops, hx]

/-- Another list of blocks for a region; what it puts before the `i`th block of the body was there
or holds no construct. -/
theorem atRegion {r : RegionId} {rd : Region} {l : List BlockId} {g : Region → Region}
    (hr : f.region? r = some rd) (hg : g rd = { rd with blocks := l })
    (hl : r = f.body → ∀ b ∈ l, ∃ d, f.block? b = some d)
    (hi : r = f.body → ∀ b ∈ l.take i, b ∈ rd.blocks.take i ∨ f.Cleared D b ∧ ¬ out b) :
    (f.atRegion r g).Swept i D out := by
  obtain ⟨d, hd⟩ := h.body
  have hblocks : (f.atRegion r g).blocksIn f.body =
      if r = f.body then l else f.blocksIn f.body := by
    grind
  have hbody : r = f.body → f.blocksIn f.body = rd.blocks := by grind
  refine ⟨⟨h.filed.once, h.filed.op⟩, by grind, fun {b} hb => ?_, fun {b} hb => ?_,
    fun {b} hb hb' => ?_⟩
  · rw [body_atRegion, hblocks] at hb
    split at hb
    · exact hl ‹_› b hb
    · exact h.block hb
  · rw [body_atRegion, hblocks] at hb
    split at hb
    · obtain hb | hb := hi ‹_› b hb
      · exact h.cleared (by rwa [hbody ‹_›])
      · exact hb.1
    · exact h.cleared hb
  · rw [body_atRegion, hblocks] at hb'
    split at hb'
    · obtain hb' | hb' := hi ‹_› b hb'
      · exact h.out hb (by rwa [hbody ‹_›])
      · exact hb'.2 hb
    · exact h.out hb hb'

/-- Neither the owners of blocks matter nor their arguments. -/
theorem congr (hop : f'.op? = f.op?) (hops : ∀ b, f'.opsIn b = f.opsIn b)
    (hblock : ∀ b, (f'.block? b).isSome = (f.block? b).isSome) (hr : f'.region? = f.region?)
    (hbody : f'.body = f.body) : f'.Swept i D out := by
  have hblocks : f'.blocksIn f'.body = f.blocksIn f.body := by
    rw [blocksIn, hr, hbody, blocksIn]
  refine ⟨⟨fun b => hops b ▸ h.filed.once b, fun hx => ?_⟩, by rw [hr, hbody]; exact h.body,
    fun hb => ?_, fun hb x hx => ?_, fun hb => hblocks ▸ h.out hb⟩
  · rw [hop]
    exact h.filed.op (hops _ ▸ hx)
  · rw [hblocks] at hb
    rw [← Option.isSome_iff_exists, hblock, Option.isSome_iff_exists]
    exact h.block hb
  · rw [hop]
    exact h.cleared (hblocks ▸ hb) x (hops _ ▸ hx)

theorem atBlock (hg : ∀ d, (g d).ops = d.ops) : (f.atBlock b g).Swept i D out := by
  refine h.congr rfl (fun c => ?_) (fun c => ?_) rfl rfl
  · have := f.block?_atBlock b g c
    grind
  · rw [block?_atBlock]
    split <;> simp

theorem setOwners (l : List BlockId) (p : Option RegionId) : (f.setOwners l p).Swept i D out := by
  refine h.congr (funext fun x => by simp) (fun c => ?_) (fun c => ?_) (funext fun r => by simp)
    (by simp)
  · have := f.block?_setOwners l p c
    grind
  · rw [block?_setOwners]
    split <;> simp

end Swept

end Func

/-! ## Changing ops -/

section

variable {i : Nat} {D : List OpId} {out : BlockId → Prop}

namespace Edit

open Func

variable {x : OpId}

theorem modifyOp_retains {g : Op → Op} (hp : ∀ d, (g d).parent = d.parent ∧ (g d).live = d.live)
    (hk : ∀ d, Tamer d.kind (g d).kind) : Retains (Func.Swept · i D out) (modifyOp x g) :=
  fun _ h => .modifyOp fun _ _ => h.atOp hp hk

theorem replaceKind_retains {kind : OpKind} (hk : kind.isStructured = false) :
    Retains (Func.Swept · i D out) (replaceKind x kind) :=
  modifyOp_retains (fun _ => ⟨rfl, rfl⟩) fun _ hs => by simp [hk] at hs

theorem setOperands_retains (x : OpId) (operands : List ValueId) :
    Retains (Func.Swept · i D out) (setOperands x operands) :=
  modifyOp_retains (fun _ => ⟨rfl, rfl⟩) fun _ hs => ⟨hs, rfl⟩

theorem replaceAllUses_retains (old new : ValueId) :
    Retains (Func.Swept · i D out) (replaceAllUses old new) := by
  intro f h
  refine .update (h.mapOps (g := fun _ d => if d.live then
    { d with operands := d.operands.map fun v => if v = old then new else v } else d)
    (fun x => by simp [op?]) (fun x d => ?_) (fun x d => ?_) rfl rfl rfl)
  · split <;> exact ⟨rfl, rfl⟩
  · split <;> exact fun hs => ⟨hs, rfl⟩

theorem addBlockArg_retains (b : BlockId) (ty : Ty) :
    Retains (Func.Swept · i D out) (addBlockArg b ty) := by
  intro f h
  refine .getBlock fun d _ => .get ?_
  refine .bind (m := fun _ f' => f' = f.withArg b ty d.args.length) (.of_ok rfl rfl) ?_
  rintro _ _ rfl
  refine .bind (m := fun _ f' => f'.Swept i D out) (.modifyBlock fun _ _ => ?_) fun _ _ h => .pure h
  have hadded : (f.withArg b ty d.args.length).Swept i D out :=
    h.congr rfl (fun _ => rfl) (fun _ => rfl) rfl rfl
  exact hadded.atBlock
    fun _ => rfl

/-! ## Placing ops -/

section

variable {f : Func} {x : OpId}

theorem createOp_spare {kind : OpKind} {operands : List ValueId} {tys : List Ty} {n : Nat}
    (h : f.Swept i D out) (hk : kind.isStructured = false) :
    Keeps (fun _ => True) (createOp kind operands tys n) f fun x f' =>
      f'.Swept i D out ∧ f'.Unplaced x :=
  .of_ok (a := ⟨f.ops.size⟩) (t := f.withOp kind operands tys n) rfl
    ⟨h.withOp .., _, by rw [op?_withOp, if_pos rfl], rfl, rfl, hk⟩

theorem placeOp_swept {b : BlockId} {bd : Block} {l : List OpId} {g : Block → Block}
    (h : f.Swept i D out) (hx : f.Unplaced x) (hb : f.block? b = some bd)
    (hg : g bd = { bd with ops := l }) (hl : l.Perm (x :: bd.ops)) :
    Keeps (fun _ => True) (do setOpParent x (some b); modifyBlock b g) f fun _ f' =>
      f'.Swept i D out := by
  obtain ⟨d, hd, hparent, hlive, hkind⟩ := hx
  refine .bind (m := fun _ f' => f' = f.atOp x fun d => { d with parent := some b })
    (.modifyOp fun _ _ => rfl) fun _ f₁ hf₁ => ?_
  subst hf₁
  exact .modifyBlock fun _ _ => h.placeOp hd hparent hlive (.inl hkind) hb hg hl

variable {anchor : OpId}

theorem insertOpBefore_swept (h : f.Swept i D out) (hx : f.Unplaced x) :
    Keeps (fun _ => True) (insertOpBefore anchor x) f fun _ f' => f'.Swept i D out := by
  refine .placeOfOp trivial fun b place bd _ hb hplace => ?_
  have hi := (List.getElem?_eq_some_iff.mp hplace).1
  exact placeOp_swept h hx hb rfl (List.perm_insertIdx _ _ hi.le)

theorem insertOpAfter_swept (h : f.Swept i D out) (hx : f.Unplaced x) :
    Keeps (fun _ => True) (insertOpAfter anchor x) f fun _ f' => f'.Swept i D out := by
  refine .placeOfOp trivial fun b place bd _ hb hplace => ?_
  have hi := (List.getElem?_eq_some_iff.mp hplace).1
  exact placeOp_swept h hx hb rfl (List.perm_insertIdx _ _ hi)

end

variable {kind : OpKind} {operands : List ValueId} {tys : List Ty}

variable {anchor : OpId}

/-- A new op that is no construct, placed next to another. -/
theorem emit_retains {place : OpId → Edit Unit} (hk : kind.isStructured = false)
    (hplace : ∀ f x, f.Swept i D out → f.Unplaced x →
      Keeps (fun _ => True) (place x) f fun _ f' => f'.Swept i D out) :
    Retains (Func.Swept · i D out) (do
      let op ← createOp kind operands tys 0
      setSpan op (← getOp anchor).span
      place op
      return op) := by
  intro f h
  refine .bind (createOp_spare h hk) ?_
  rintro x f₁ ⟨h₁, d, hd, hparent, hlive, hkind⟩
  refine .getOp fun e _ => .bind (m := fun _ f' => f'.Swept i D out ∧ f'.Unplaced x) ?_ ?_
  · refine .modifyOp fun _ _ => ⟨h₁.atOp (fun _ => ⟨rfl, rfl⟩) fun _ hs => ⟨hs, rfl⟩, ?_⟩
    exact ⟨{ d with span := e.span }, by rw [op?_atOp, if_pos rfl, hd]; rfl, hparent, hlive, hkind⟩
  · rintro _ f₂ ⟨h₂, hx₂⟩
    exact .bind (hplace f₂ x h₂ hx₂) fun _ _ h₃ => .pure h₃

theorem emitBefore_retains (hk : kind.isStructured = false) :
    Retains (Func.Swept · i D out) (emitBefore anchor kind operands tys) :=
  emit_retains hk fun _ _ h hx => insertOpBefore_swept h hx

theorem emitAfter_retains (hk : kind.isStructured = false) :
    Retains (Func.Swept · i D out) (emitAfter anchor kind operands tys) :=
  emit_retains hk fun _ _ h hx => insertOpAfter_swept h hx

variable {b : BlockId}

theorem emitAtEnd_retains (hk : kind.isStructured = false) :
    Retains (Func.Swept · i D out) (emitAtEnd b kind operands tys) := by
  intro f h
  refine .bind (createOp_spare h hk) ?_
  rintro x f₁ ⟨h₁, d, hd, hparent, hlive, hkind⟩
  refine .bind (m := fun _ f' => f'.Swept i D out) ?_ fun _ _ h₂ => .pure h₂
  refine .bind (m := fun _ f' => f' = f₁.atOp x fun d => { d with parent := some b })
    (.modifyOp fun _ _ => rfl) fun _ f₂ hf₂ => ?_
  subst hf₂
  refine .modifyBlock fun bd hb => h₁.placeOp hd hparent hlive (.inl hkind) hb rfl ?_
  exact List.perm_append_singleton x bd.ops

/-! ## Placing blocks -/

variable {f : Func}

theorem newBlock_swept (h : f.Swept i D out) (tys : List Ty) :
    Keeps (fun _ => True) (newBlock tys) f fun b f' =>
      f'.Swept i D (fun c => out c ∨ c = b) ∧ (∃ d, f'.block? b = some d ∧ d.ops = []) ∧
        f'.op? = f.op? ∧ f'.body = f.body :=
  .of_ok (newBlock_eq f tys) ⟨h.withBlock tys, ⟨_, by rw [block?_withBlock, if_pos rfl], rfl⟩,
    rfl, rfl⟩

theorem newBlock_retains (tys : List Ty) : Retains (Func.Swept · i D out) (newBlock tys) :=
  fun _ h => (newBlock_swept h tys).mono fun _ _ h' => h'.1.mono fun _ => .inl

theorem takeRegion_retains (r : RegionId) : Retains (Func.Swept · i D out) (takeRegion r) := by
  intro f h
  refine .getRegion fun rd hrd => ?_
  refine .bind (m := fun _ f' => f'.Swept i D out) (.modifyRegion fun _ _ => ?_) fun _ f₁ h₁ => ?_
  · exact h.atRegion hrd rfl (by simp) (by simp)
  · exact .bind (m := fun _ f' => f'.Swept i D out) (.setBlockParents (h₁.setOwners _ _))
      fun _ _ h₂ => .pure h₂

variable {r : RegionId} {l : List BlockId}

/-- The blocks that are claimed are there. -/
theorem claimBlocks_eq : Keeps (fun _ => True) (claimBlocks r l) f fun _ f' =>
      f' = f.setOwners l (some r) ∧ ∀ b ∈ l, ∃ d, f.block? b = some d := by
  induction l generalizing f with
  | nil => exact .pure ⟨rfl, by simp⟩
  | cons b l ih =>
    refine .getBlock fun bd hbd => ?_
    split
    · exact .throw trivial
    · refine .bind (m := fun _ f' => f' = f.atBlock b fun d => { d with parent := some r })
        (.modifyBlock fun _ _ => rfl) fun _ f₁ hf₁ => ?_
      subst hf₁
      refine ih.mono ?_
      rintro _ f' ⟨rfl, hl⟩
      refine ⟨rfl, fun c hc => ?_⟩
      obtain rfl | hc := List.mem_cons.mp hc
      · exact ⟨bd, hbd⟩
      · have := hl c hc
        rw [block?_atBlock] at this
        grind

/-- Blocks are laid out before one that comes later. -/
theorem spliceBefore_retains (anchor : BlockId) (l : List BlockId) :
    Retains (Func.Swept · i D (· = anchor)) (spliceBefore anchor l) := by
  intro f h
  refine .placeOfBlock trivial fun r place rd _ hrd hplace => .bind claimBlocks_eq ?_
  rintro _ _ ⟨rfl, hl⟩
  have hrd' : (f.setOwners l (some r)).region? r = some rd := by simp [hrd]
  refine .modifyRegion fun _ _ => (h.setOwners l (some r)).atRegion hrd' rfl ?_ ?_
  · rintro hr b hb
    have hbody : f.blocksIn f.body = rd.blocks := by
      rw [body_setOwners] at hr
      simp [blocksIn, ← hr, hrd]
    obtain ⟨d, hd⟩ : ∃ d, f.block? b = some d := by
      simp only [List.append_assoc, List.mem_append] at hb
      obtain hb | hb | hb := hb
      · exact h.block (hbody ▸ List.mem_of_mem_take hb)
      · exact hl b hb
      · exact h.block (hbody ▸ List.mem_of_mem_drop hb)
    rw [block?_setOwners, hd]
    split <;> simp
  · rintro hr b hb
    have hbody : f.blocksIn f.body = rd.blocks := by
      rw [body_setOwners] at hr
      simp [blocksIn, ← hr, hrd]
    -- the place is not before the `i`th block
    have hi : i ≤ place := by
      by_contra hlt
      refine h.out rfl (hbody ▸ List.mem_take_iff_getElem.mpr ?_)
      obtain ⟨hlen, hx⟩ := List.getElem?_eq_some_iff.mp hplace
      exact ⟨place, by omega, hx⟩
    left
    have hlen := (List.getElem?_eq_some_iff.mp hplace).1
    rwa [List.append_assoc, List.take_append_of_le_length (by simp; omega), List.take_take,
      Nat.min_eq_left hi] at hb

theorem appendBlock_swept (h : f.Swept i D out) (hr : r ≠ f.body) :
    Keeps (fun _ => True) (appendBlock r b) f fun _ f' =>
      f'.Swept i D out ∧ f'.op? = f.op? ∧ f'.body = f.body := by
  refine .bind (m := fun _ f' => f' = f.atBlock b fun d => { d with parent := some r })
    (.modifyBlock fun _ _ => rfl) fun _ f₁ hf₁ => ?_
  subst hf₁
  refine .modifyRegion fun rd hrd => ⟨?_, rfl, rfl⟩
  exact (h.atBlock (g := fun d => { d with parent := some r }) fun _ => rfl).atRegion hrd rfl
    (fun h => (hr h).elim) fun h => (hr h).elim

/-- What is moved behind a place of a list by an insertion. -/
theorem mem_take_insertIdx {a c : BlockId} {n k : Nat} (hn : n ≤ l.length)
    (h : c ∈ (l.insertIdx n a).take k) : c ∈ l.take k ∨ c = a ∧ n < k := by
  rw [List.mem_take_iff_getElem] at h ⊢
  obtain ⟨j, hj, rfl⟩ := h
  rw [List.getElem_insertIdx]
  have hlen := List.length_insertIdx_of_le_length hn (a := a)
  split
  · exact .inl ⟨j, by omega, rfl⟩
  · split
    · exact .inr ⟨rfl, by omega⟩
    · exact .inl ⟨j - 1, by omega, rfl⟩

theorem splitAfter_swept (h : f.Swept i D fun _ => False) :
    Keeps (fun _ => True) (splitAfter x) f fun b f' =>
      f'.Swept i D fun c => c = b ∧ f.kindIs OpKind.isPending x = true := by
  refine .placeOfOp trivial fun b place bd hx hb hplace => .getBlock fun bd' hb' => ?_
  cases hb.symm.trans hb'
  have hxb : x ∈ f.opsIn b := by
    simpa [opsIn, hb] using List.mem_of_getElem? hplace
  obtain ⟨h₄, hcleared⟩ := h.splitBlock hb (n := place + 1) rfl
  refine .bind (m := fun _ f' => f' = f.atBlock b fun d => { d with ops := d.ops.take (place + 1) })
    (.modifyBlock fun _ _ => rfl) fun _ f₁ hf₁ => ?_
  refine .bind (m := fun c f' => c = ⟨f.blocks.size⟩ ∧ f' = f₁.withBlock []) ?_ ?_
  · exact .of_ok (newBlock_eq _ _) ⟨by simp [hf₁, atBlock], rfl⟩
  rintro _ f₂ ⟨rfl, hf₂⟩
  refine .bind (.setOpParents (Q := fun _ f' => f' = _) rfl) fun _ f₃ hf₃ => ?_
  refine .bind (m := fun _ f' => f' = f.splitBlock b (place + 1) (bd.ops.drop (place + 1)))
    (.modifyBlock fun _ _ => ?_) fun _ f₄ hf₄ => ?_
  · rw [hf₃, hf₂, hf₁]
    rfl
  rw [← hf₄] at h₄ hcleared
  refine .bind (m := fun _ f' => f'.Swept i D fun c => c = ⟨f.blocks.size⟩ ∧
    f.kindIs OpKind.isPending x = true) (.placeOfBlock trivial fun r p rd _ hrd hp => ?_)
    fun _ _ h₅ => .pure h₅
  refine .bind (m := fun _ f' => f' = f₄.atBlock ⟨f.blocks.size⟩
    fun d => { d with parent := some r })
    (.modifyBlock fun _ _ => rfl) fun _ f₅ hf₅ => ?_
  have h₄' : f₄.Swept i D fun c => c = ⟨f.blocks.size⟩ ∧ f.kindIs OpKind.isPending x = true :=
    h₄.mono fun c hc => .inr hc.1
  have h₅ := h₄'.atBlock (b := ⟨f.blocks.size⟩) (g := fun d => { d with parent := some r })
    fun _ => rfl
  subst hf₅
  obtain ⟨hlen, hpb⟩ := List.getElem?_eq_some_iff.mp hp
  refine .modifyRegion fun _ _ => h₅.atRegion hrd rfl (fun hr c hc => ?_) fun hr c hc => ?_
  · obtain rfl | hc := (List.mem_insertIdx hlen).mp hc
    · rw [block?_atBlock, if_pos rfl, hf₄, block?_splitBlock hb, if_pos rfl]
      exact ⟨_, rfl⟩
    · refine h₅.block ?_
      rw [← hr]
      simpa [blocksIn, hrd] using hc
  · obtain hc | ⟨rfl, hlt⟩ := mem_take_insertIdx hlen hc
    · exact .inl hc
    right
    -- the block that was split is before the `i`th
    have hbi : b ∈ (f.blocksIn f.body).take i := by
      rw [hf₄, body_atBlock, body_splitBlock] at hr
      have hblocks : f.blocksIn f.body = rd.blocks := by
        rw [hf₄, region?_splitBlock] at hrd
        simp [blocksIn, ← hr, hrd]
      rw [hblocks]
      exact List.mem_take_iff_getElem.mpr ⟨p, by omega, hpb⟩
    refine ⟨(hcleared (h.cleared hbi)).of_subset (fun y hy => ?_) fun _ => rfl, fun hpending => ?_⟩
    · have := f₄.block?_atBlock ⟨f.blocks.size⟩ (fun d => { d with parent := some r })
      grind
    · have hclear := h.cleared hbi x hxb
      have hkind := hpending.2
      unfold Func.kindIs OpKind.isPending at hkind
      grind

end Edit

end

end Unnest
