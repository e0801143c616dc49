import Unnest.Proofs.Lowering.Runs
import Unnest.Proofs.Scan.Edits
/-!
# Erasing and cloning behind the search

An erasure takes ops out of their blocks before they die, and blocks out of their regions, all at
once: what is left is as it was (`Func.Sheds`). So nothing comes to stand before another place. That
holds also of an op that owns the body itself; then all is gone.

A clone may hold constructs, but it is made of new blocks, in new regions, which the body does not
list.
-/

namespace Unnest

namespace Func

/-- Regions keep their blocks or lose them all, blocks lose ops at most, and kinds stay. -/
structure Sheds (f f' : Func) : Prop where
  body : f'.body = f.body
  region (r : RegionId) : (f'.region? r).isSome = (f.region? r).isSome
  blocksIn (r : RegionId) : f'.blocksIn r = f.blocksIn r ∨ f'.blocksIn r = []
  block (b : BlockId) : (f'.block? b).isSome = (f.block? b).isSome
  opsIn {b : BlockId} {x : OpId} : x ∈ f'.opsIn b → x ∈ f.opsIn b
  kind (x : OpId) : (f'.op? x).map (·.kind) = (f.op? x).map (·.kind)

namespace Sheds

variable {f f₁ f₂ : Func}

theorem refl (f : Func) : f.Sheds f where
  body := rfl
  region _ := rfl
  blocksIn _ := .inl rfl
  block _ := rfl
  opsIn hx := hx
  kind _ := rfl

theorem trans (h₁ : f.Sheds f₁) (h₂ : f₁.Sheds f₂) : f.Sheds f₂ where
  body := h₂.body.trans h₁.body
  region r := (h₂.region r).trans (h₁.region r)
  blocksIn r := by
    have := h₁.blocksIn r
    have := h₂.blocksIn r
    grind
  block b := (h₂.block b).trans (h₁.block b)
  opsIn hx := h₁.opsIn (h₂.opsIn hx)
  kind x := (h₂.kind x).trans (h₁.kind x)

theorem atOp {x : OpId} {g : Op → Op} (hg : ∀ d, (g d).kind = d.kind) : f.Sheds (f.atOp x g) := by
  refine ⟨rfl, fun _ => rfl, fun _ => .inl rfl, fun _ => rfl, fun hx => hx, fun y => ?_⟩
  rw [op?_atOp]
  split
  · rw [Option.map_map]
    exact Option.map_congr fun d _ => hg d
  · rfl

theorem atBlock {b : BlockId} {g : Block → Block} (hg : ∀ d, ∀ x ∈ (g d).ops, x ∈ d.ops) :
    f.Sheds (f.atBlock b g) := by
  refine ⟨rfl, fun _ => rfl, fun _ => .inl rfl, fun c => ?_, fun {c x} hx => ?_, fun _ => rfl⟩
  · rw [block?_atBlock]
    split <;> simp
  · have hb := f.block?_atBlock b g c
    unfold Func.opsIn at hx ⊢
    rw [hb] at hx
    cases hc : f.block? c with
    | none => simp [hc] at hx
    | some d => grind

theorem emptied (r : RegionId) : f.Sheds (f.atRegion r fun d => { d with blocks := [] }) := by
  refine ⟨rfl, fun q => ?_, fun q => ?_, fun _ => rfl, fun hx => hx, fun _ => rfl⟩
  · rw [region?_atRegion]
    split <;> simp
  · have := f.region?_atRegion r (fun d => { d with blocks := [] }) q
    grind

theorem setOwners (l : List BlockId) (p : Option RegionId) : f.Sheds (f.setOwners l p) := by
  refine ⟨by simp, fun r => by simp, fun r => .inl (by simp [Func.blocksIn]), fun b => ?_,
    fun {b x} hx => ?_, fun x => by simp⟩
  · rw [block?_setOwners]
    split <;> simp
  · have := f.block?_setOwners l p b
    grind

end Sheds

/-- Where less is left, and all that is listed is alive, nothing has come before the place. -/
theorem Swept.sheds {f f' : Func} {i : Nat} {D : List OpId} {out : BlockId → Prop}
    (h : f.Swept i D out) (hs : f.Sheds f') (hf : f'.Filed) : f'.Swept i D out := by
  have hblocks := hs.blocksIn f.body
  refine ⟨hf, ?_, fun {b} hb => ?_, fun {b} hb => ?_, fun {b} hb hb' => ?_⟩
  · rw [hs.body, ← Option.isSome_iff_exists, hs.region, Option.isSome_iff_exists]
    exact h.body
  · rw [← Option.isSome_iff_exists, hs.block, Option.isSome_iff_exists]
    rw [hs.body] at hb
    exact h.block (by grind)
  · rw [hs.body] at hb
    exact (h.cleared (b := b) (by grind)).of_subset (fun x hx => hs.opsIn hx) hs.kind
  · rw [hs.body] at hb'
    exact h.out hb (by grind)

/-- No block lists the op. -/
def Unlisted (f : Func) (x : OpId) : Prop := ∀ b, x ∉ f.opsIn b

theorem Sheds.unlisted {f f' : Func} {x : OpId} (h : f.Sheds f') (hx : f.Unlisted x) :
    f'.Unlisted x :=
  fun b hb => hx b (h.opsIn hb)

theorem Filed.unlisted {f : Func} {x : OpId} (h : f.Filed) (hx : f.ownerOfOp x = none) :
    f.Unlisted x := fun b hb => by
  obtain ⟨d, hd, hp, -⟩ := h.op hb
  simp [ownerOfOp, hd, hp] at hx

/-- What is changed of an op that no block lists does not matter. -/
theorem Filed.atOp {f : Func} {x : OpId} (h : f.Filed) (hx : f.Unlisted x) (g : Op → Op) :
    (f.atOp x g).Filed := by
  refine ⟨h.once, fun {b y} hy => ?_⟩
  have hyx : y ≠ x := fun hyx => hx b (hyx ▸ hy)
  rw [op?_atOp, if_neg hyx]
  exact h.op hy

theorem Filed.congr {f f' : Func} (h : f.Filed) (hops : ∀ b, f'.opsIn b = f.opsIn b)
    (hop : f'.op? = f.op?) : f'.Filed := by
  refine ⟨fun b => hops b ▸ h.once b, fun hx => ?_⟩
  rw [hop]
  exact h.op (hops _ ▸ hx)

end Func

namespace Edit

open Func

/-- The computation takes away only, and leaves what is listed alive. -/
def Erases {α : Type} (x : Edit α) : Prop :=
  ∀ f, f.Filed → Keeps (fun _ => True) x f fun _ f' => f'.Filed ∧ f.Sheds f'

variable {f : Func} {clear : RegionId → Edit Unit}

theorem forM_erases {γ : Type} {l : List γ} {k : γ → Edit Unit} (hk : ∀ c, Erases (k c)) :
    Erases (l.forM k) := by
  intro f h
  refine Keeps.forM (m := fun _ f' => f'.Filed ∧ f.Sheds f') ⟨h, .refl f⟩ ?_
  rintro c _ f₁ ⟨h₁, s₁⟩
  exact (hk c f₁ h₁).mono fun _ _ h₂ => ⟨h₂.1, s₁.trans h₂.2⟩

theorem killOp_sheds (hc : ∀ r, Erases (clear r)) {x : OpId} (h : f.Filed) (hx : f.Unlisted x) :
    Keeps (fun _ => True) (killOp clear x) f fun _ f' => f'.Filed ∧ f.Sheds f' := by
  refine .bind (m := fun _ f' => f'.Filed ∧ f.Sheds f') (.modifyOp fun _ _ => ?_) ?_
  · exact ⟨h.atOp hx _, .atOp fun _ => rfl⟩
  · rintro _ f₁ ⟨h₁, s₁⟩
    refine .getOp fun d _ => ?_
    exact (forM_erases hc f₁ h₁).mono fun _ _ h₂ => ⟨h₂.1, s₁.trans h₂.2⟩

theorem killBlock_erases (hc : ∀ r, Erases (clear r)) (b : BlockId) :
    Erases (killBlock clear b) := by
  intro f h
  refine .bind (m := fun _ f' => f'.Filed ∧ f.Sheds f') (.modifyBlock fun _ _ => ?_) ?_
  · refine ⟨h.congr (fun c => ?_) rfl, .atBlock fun _ _ hx => hx⟩
    have := f.block?_atBlock b (fun d => { d with live := false }) c
    grind
  rintro _ f₁ ⟨h₁, s₁⟩
  refine .getBlock fun bd hbd => ?_
  have hops : f₁.opsIn b = bd.ops := by simp [opsIn, hbd]
  refine .bind (m := fun _ f' => f'.Filed ∧ f.Sheds f' ∧ ∀ x ∈ bd.ops, f'.Unlisted x)
    (.modifyBlock fun _ _ => ?_) ?_
  · have hopsIn (c : BlockId) : (f₁.atBlock b fun d => { d with ops := [] }).opsIn c =
        if c = b then [] else f₁.opsIn c := by grind
    refine ⟨⟨fun c => ?_, fun {c x} hx => ?_⟩, s₁.trans (.atBlock (by simp)), ?_⟩
    · rw [hopsIn]
      split
      · exact .nil
      · exact h₁.once c
    · have := @h₁.op c x
      grind
    · intro x hx c hxc
      have := @h₁.op c x
      have := @h₁.op b x
      grind
  rintro _ f₂ ⟨h₂, s₂, hx₂⟩
  refine (Keeps.forM (m := fun rest f' => f'.Filed ∧ f.Sheds f' ∧ ∀ x ∈ rest, f'.Unlisted x)
    ⟨h₂, s₂, hx₂⟩ ?_).mono fun _ _ h₃ => ⟨h₃.1, h₃.2.1⟩
  rintro x rest f₃ ⟨h₃, s₃, hx₃⟩
  have hx := hx₃ x (by simp)
  refine .bind (m := fun _ f' => f'.Filed ∧ f₃.Sheds f') (.modifyOp fun _ _ => ?_) ?_
  · exact ⟨h₃.atOp hx _, .atOp fun _ => rfl⟩
  rintro _ f₄ ⟨h₄, s₄⟩
  refine (killOp_sheds hc h₄ (s₄.unlisted hx)).mono ?_
  rintro _ f₅ ⟨h₅, s₅⟩
  have hs := s₄.trans s₅
  exact ⟨h₅, s₃.trans hs, fun y hy => hs.unlisted (hx₃ y (by simp [hy]))⟩

theorem takeRegion_erases (r : RegionId) : Erases (takeRegion r) := by
  intro f h
  refine (takeRegion_eq r).mono ?_
  rintro _ _ ⟨-, rfl⟩
  refine ⟨h.congr (fun c => ?_) (funext fun x => by simp), (Sheds.emptied r).trans (.setOwners _ _)⟩
  have := block?_setOwners (f.atRegion r fun d => { d with blocks := [] }) (f.blocksIn r) none c
  grind

theorem clearTo_erases (levels : Nat) (r : RegionId) : Erases (clearTo levels r) := by
  induction levels generalizing r with
  | zero => exact fun _ _ => .throw trivial
  | succ levels ih =>
    intro f h
    refine .bind (takeRegion_erases r f h) ?_
    rintro l f₁ ⟨h₁, s₁⟩
    exact (forM_erases (fun b => killBlock_erases ih b) f₁ h₁).mono fun _ _ h₂ =>
      ⟨h₂.1, s₁.trans h₂.2⟩

theorem clearRegion_erases (r : RegionId) : Erases (clearRegion r) :=
  fun f h => .get (clearTo_erases _ r f h)

theorem discardBlocks_erases (l : List BlockId) : Erases (discardBlocks l) :=
  forM_erases fun b => killBlock_erases clearRegion_erases b

/-- An op is taken out of the one block that lists it. -/
theorem detachOp_sheds (h : f.Filed) (x : OpId) :
    Keeps (fun _ => True) (detachOp x) f fun _ f' =>
      f'.Filed ∧ f.Sheds f' ∧ f'.Unlisted x ∧ f'.blocksIn = f.blocksIn := by
  refine .placeOfOp trivial fun b place bd hx hb hplace => ?_
  obtain ⟨hlen, hget⟩ := List.getElem?_eq_some_iff.mp hplace
  have hops : f.opsIn b = bd.ops := by simp [opsIn, hb]
  have hperm := List.getElem_cons_eraseIdx_perm hlen
  rw [hget] at hperm
  obtain ⟨hnot, hnodup⟩ := List.nodup_cons.mp (hperm.nodup_iff.mpr (hops ▸ h.once b))
  have hsub : ∀ y ∈ bd.ops.eraseIdx place, y ∈ bd.ops := fun y hy => List.mem_of_mem_eraseIdx hy
  refine .bind (m := fun _ f' => f'.Filed ∧ f.Sheds f' ∧ f'.Unlisted x ∧ f'.blocksIn = f.blocksIn)
    (.modifyBlock fun _ _ => ?_) ?_
  · have hopsIn (c : BlockId) :
      (f.atBlock b fun d => { d with ops := d.ops.eraseIdx place }).opsIn c =
        if c = b then bd.ops.eraseIdx place else f.opsIn c := by grind
    refine ⟨⟨fun c => ?_, fun {c y} hy => ?_⟩, .atBlock fun _ _ hy => List.mem_of_mem_eraseIdx hy,
      fun c hc => ?_, rfl⟩
    · rw [hopsIn]
      split
      · exact hnodup
      · exact h.once c
    · have := @h.op c y
      rw [hopsIn] at hy
      grind
    · have := @h.op c x
      rw [hopsIn] at hc
      grind
  · rintro _ f₁ ⟨h₁, s₁, hx₁, hb₁⟩
    exact .modifyOp fun _ _ => ⟨h₁.atOp hx₁ _, s₁.trans (.atOp fun _ => rfl), hx₁, hb₁⟩

theorem eraseOp_erases (x : OpId) : Erases (eraseOp x) := by
  intro f h
  refine .getOp fun d hd => ?_
  split
  · refine .bind (detachOp_sheds h x) ?_
    rintro _ f₁ ⟨h₁, s₁, hx₁, -⟩
    exact (killOp_sheds clearRegion_erases h₁ hx₁).mono fun _ _ h₂ => ⟨h₂.1, s₁.trans h₂.2⟩
  · exact killOp_sheds clearRegion_erases h (h.unlisted (by simp_all [ownerOfOp]))

variable {i : Nat} {D : List OpId} {out : BlockId → Prop}

theorem Erases.retains {α : Type} {x : Edit α} (h : Erases x) :
    Retains (Func.Swept · i D out) x :=
  fun f hf => (h f hf.filed).mono fun _ _ h' => hf.sheds h'.2 h'.1

/-! ## Cloning -/

/-- Copies of what a region holds are put where the body does not reach; the ops that were there
are as they were. -/
def CopiesAside (i : Nat) (D : List OpId)
    (copyRegion : CloneMap → RegionId × RegionId → Edit CloneMap) : Prop :=
  ∀ {f : Func} {out : BlockId → Prop} (m : CloneMap) (r into : RegionId), f.Swept i D out →
    into ≠ f.body → Keeps (fun _ => True) (copyRegion m (r, into)) f fun _ f' =>
      f'.Swept i D out ∧ f'.body = f.body ∧ ∀ x d, f.op? x = some d → f'.op? x = some d

variable {copyRegion : CloneMap → RegionId × RegionId → Edit CloneMap}

theorem copyOp_swept (hc : CopiesAside i D copyRegion) {into : BlockId} (hinto : out into)
    (h : f.Swept i D out) (m : CloneMap) (x : OpId) :
    Keeps (fun _ => True) (copyOp copyRegion into m x) f fun _ f' =>
      f'.Swept i D out ∧ f'.body = f.body ∧ ∀ y d, f.op? y = some d → f'.op? y = some d := by
  refine .getOp fun d hd => .read (.mapM valueTy_reads _) trivial fun tys _ => ?_
  refine .bind (m := fun copy f' => f'.Swept i D out ∧ f'.body = f.body ∧ f.op? copy = none ∧
    (∀ y e, f.op? y = some e → f'.op? y = some e) ∧ ∃ c, f'.op? copy = some c ∧ c.parent = none ∧
      c.live = true ∧ f.body ∉ c.regions) ?_ ?_
  · refine .of_ok (a := ⟨f.ops.size⟩) (t := f.withOp d.kind d.operands tys d.regions.length) rfl
      ⟨h.withOp .., rfl, by simp [op?], fun y e hy => by grind, _, by rw [op?_withOp, if_pos rfl],
        rfl, rfl, fun hmem => ?_⟩
    obtain ⟨rd, hrd⟩ := h.body
    have := f.region?_size hrd
    obtain ⟨k, -, hk⟩ := List.mem_map.mp hmem
    grind
  rintro copy f₁ ⟨h₁, hbody₁, hnew, hold₁, c, hcopy, hparent, hlive, hregions⟩
  refine .bind (m := fun _ f' => f'.Swept i D out ∧ f'.body = f.body ∧
    (∀ y e, f.op? y = some e → f'.op? y = some e) ∧
      f'.op? copy = some { c with span := d.span }) (.modifyOp fun _ _ => ?_) ?_
  · refine ⟨h₁.atOp (fun _ => ⟨rfl, rfl⟩) fun _ hs => ⟨hs, rfl⟩, hbody₁, fun y e hy => ?_, ?_⟩
    · rw [op?_atOp, if_neg (by grind)]
      exact hold₁ y e hy
    · rw [op?_atOp, if_pos rfl, hcopy]
      rfl
  rintro _ f₂ ⟨h₂, hbody₂, hold₂, hcopy₂⟩
  refine .getOp fun c' hc' => ?_
  cases hcopy₂.symm.trans hc'
  refine .bind (m := fun _ f' => f'.Swept i D out ∧ f'.body = f.body ∧
    ∀ y e, f₂.op? y = some e → f'.op? y = some e)
    (.foldlM ⟨h₂, hbody₂, fun _ _ hy => hy⟩ ?_) ?_
  · rintro m' ⟨r, into'⟩ hp f₃ ⟨h₃, hbody₃, hold₃⟩
    have hne : into' ≠ f₃.body := fun heq => hregions (by
      rw [← hbody₃, ← heq]
      exact (List.of_mem_zip hp).2)
    refine (hc m' r into' h₃ hne).mono ?_
    rintro _ f₄ ⟨h₄, hbody₄, hold₄⟩
    exact ⟨h₄, hbody₄.trans hbody₃, fun y e hy => hold₄ y e (hold₃ y e hy)⟩
  rintro m' f₃ ⟨h₃, hbody₃, hold₃⟩
  refine .bind (m := fun _ f' => f'.Swept i D out ∧ f'.body = f.body ∧
    ∀ y e, f.op? y = some e → f'.op? y = some e) ?_ fun _ _ h₄ => .pure h₄
  refine .bind (m := fun _ f' => f' = f₃.atOp copy fun d => { d with parent := some into })
    (.modifyOp fun _ _ => rfl) fun _ f₄ hf₄ => ?_
  subst hf₄
  refine .modifyBlock fun bd hb => ⟨h₃.placeOp (hold₃ _ _ hc') hparent hlive (.inr hinto) hb rfl
    (List.perm_append_singleton copy bd.ops), hbody₃, fun y e hy => ?_⟩
  rw [op?_atBlock, op?_atOp, if_neg (by grind)]
  exact hold₃ y e (hold₂ y e hy)

theorem copyBlock_swept (hc : CopiesAside i D copyRegion) (h : f.Swept i D out) (m : CloneMap)
    (b : BlockId) :
    Keeps (fun _ => True) (copyBlock copyRegion m b) f fun _ f' =>
      f'.Swept i D out ∧ f'.body = f.body ∧ ∀ y d, f.op? y = some d → f'.op? y = some d := by
  refine .getBlock fun bd _ => .read (.mapM valueTy_reads _) trivial fun tys _ => ?_
  refine .bind (newBlock_swept h tys) ?_
  rintro copy f₁ ⟨h₁, -, hop₁, hbody₁⟩
  refine .getBlock fun _ _ => .getBlock fun _ _ => ?_
  refine .bind (m := fun _ f' => f'.Swept i D (fun c => out c ∨ c = copy) ∧ f'.body = f.body ∧
    ∀ y e, f.op? y = some e → f'.op? y = some e)
    (.foldlM ⟨h₁, hbody₁, fun y e hy => by rwa [hop₁]⟩ ?_) ?_
  · rintro m' x _ f₂ ⟨h₂, hbody₂, hold₂⟩
    have hcopy : (fun c => out c ∨ c = copy) copy := .inr rfl
    refine (copyOp_swept hc hcopy h₂ m' x).mono ?_
    rintro _ f₃ ⟨h₃, hbody₃, hold₃⟩
    exact ⟨h₃, hbody₃.trans hbody₂, fun y e hy => hold₃ y e (hold₂ y e hy)⟩
  · rintro m' f₂ ⟨h₂, hbody₂, hold₂⟩
    exact .pure ⟨h₂.mono fun _ => .inl, hbody₂, hold₂⟩

theorem copiesAside_copyRegionTo (levels : Nat) : CopiesAside i D (copyRegionTo levels) := by
  induction levels with
  | zero => exact fun _ _ _ _ _ => .stop (by simp)
  | succ levels ih =>
    intro f out m r into h hinto
    refine .getRegion fun rd _ => .foldlM (m := fun (f' : Func) => f'.Swept i D out ∧
      f'.body = f.body ∧ ∀ y d, f.op? y = some d → f'.op? y = some d) ⟨h, rfl, fun _ _ hy => hy⟩ ?_
    rintro m' b _ f₁ ⟨h₁, hbody₁, hold₁⟩
    refine .bind (copyBlock_swept ih h₁ m' b) ?_
    rintro p f₂ ⟨h₂, hbody₂, hold₂⟩
    refine .bind (appendBlock_swept h₂ (by rwa [hbody₂, hbody₁])) ?_
    rintro _ f₃ ⟨h₃, hop₃, hbody₃⟩
    refine .pure ⟨h₃, hbody₃.trans (hbody₂.trans hbody₁), fun y d hy => ?_⟩
    rw [hop₃]
    exact hold₂ y d (hold₁ y d hy)

theorem copyBlocks_retains (levels : Nat) (m : CloneMap) (l : List BlockId) :
    Retains (Func.Swept · i D out) (copyBlocks levels m l) := by
  induction l generalizing m with
  | nil => exact .pure _
  | cons b l ih =>
    refine .bind (fun f h => ?_) fun p => .bind (ih p.2) fun q => .pure _
    exact (copyBlock_swept (copiesAside_copyRegionTo levels) h m b).mono fun _ _ h' => h'.1

theorem cloneRegion_retains (r : RegionId) : Retains (Func.Swept · i D out) (cloneRegion r) := by
  refine .bind (.read .get) fun f => .bind (.read (getRegion_reads r)) fun rd => ?_
  refine .bind (copyBlocks_retains _ _ _) fun p => .bind (.forM fun q _ => ?_) fun _ => .pure _
  exact modifyOp_retains (fun _ => ⟨rfl, rfl⟩) fun d hs => by simpa [Tamer] using hs

end Edit

end Unnest
