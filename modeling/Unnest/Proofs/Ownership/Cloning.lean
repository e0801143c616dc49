import Unnest.Proofs.Ownership.Edits
/-!
# Cloning keeps ownership

A clone is built from new nodes alone. What was there before is neither changed nor moved
(`Func.Extends`), so an op or block whose copy is under way stays as it was when the copy was begun.
-/

namespace Unnest

open Func

variable {f : Func}

namespace Func

/-- Every op is as it was, every block alive or dead and owned as it was, and every region belongs
to the op it belonged to. -/
structure Extends (f f' : Func) : Prop where
  op (x : OpId) (d : Op) : f.op? x = some d → f'.op? x = some d
  block (b : BlockId) (d : Block) : f.block? b = some d →
    ∃ d', f'.block? b = some d' ∧ d'.parent = d.parent ∧ d'.live = d.live
  region (r : RegionId) (p : Option OpId) : (f.region? r).map (·.parent) = some p →
    (f'.region? r).map (·.parent) = some p
  body : f'.body = f.body

namespace Extends

variable {f₁ f₂ : Func}

theorem refl (f : Func) : f.Extends f :=
  ⟨fun _ _ h => h, fun _ d h => ⟨d, h, rfl, rfl⟩, fun _ _ h => h, rfl⟩

theorem trans (h₁ : f.Extends f₁) (h₂ : f₁.Extends f₂) : f.Extends f₂ where
  op x d h := h₂.op x d (h₁.op x d h)
  block b d h := by
    obtain ⟨d₁, hd₁, hp₁, hl₁⟩ := h₁.block b d h
    obtain ⟨d₂, hd₂, hp₂, hl₂⟩ := h₂.block b d₁ hd₁
    exact ⟨d₂, hd₂, hp₂.trans hp₁, hl₂.trans hl₁⟩
  region r p h := h₂.region r p (h₁.region r p h)
  body := h₂.body.trans h₁.body

theorem free {b : BlockId} (h : f.Extends f₁) (hb : f.Free b) : f₁.Free b := by
  obtain ⟨d, hd, hp, hl⟩ := hb
  obtain ⟨d₁, hd₁, hp₁, hl₁⟩ := h.block b d hd
  exact ⟨d₁, hd₁, hp₁.trans hp, hl₁.trans hl⟩

theorem loose {op : OpId} (h : f.Extends f₁) (ho : f.Loose op) : f₁.Loose op := by
  obtain ⟨d, hd, hp⟩ := ho
  exact ⟨d, h.op op d hd, hp⟩

theorem liveBlock {b : BlockId} (h : f.Extends f₁) (hb : f.LiveBlock b) : f₁.LiveBlock b := by
  obtain ⟨d, hd, hl⟩ := hb
  obtain ⟨d₁, hd₁, -, hl₁⟩ := h.block b d hd
  exact ⟨d₁, hd₁, hl₁.trans hl⟩

theorem owner {b : BlockId} {r : RegionId} (h : f.Extends f₁) (hb : f.ownerOfBlock b = some r) :
    f₁.ownerOfBlock b = some r := by
  cases hd : f.block? b with
  | none => grind
  | some d =>
    have := h.block b d hd
    grind

theorem still (h : f.Extends f₁) : f.Still f₁ where
  body := h.body
  top b hb := h.owner hb
  atTop x hx _ := by
    obtain ⟨b, ho, hb⟩ := hx
    refine ⟨b, ?_, by rw [h.body]; exact h.owner hb⟩
    cases hd : f.op? x with
    | none => grind
    | some d =>
      have := h.op x d hd
      grind
  free b hb _ := h.free hb

end Extends

/-- A region of a live op. -/
def RegionOfLive (f : Func) (r : RegionId) : Prop :=
  ∃ op d, (f.region? r).map (·.parent) = some (some op) ∧ f.op? op = some d ∧ d.live = true

theorem RegionOfLive.mono {f' : Func} {r : RegionId} (h : f.RegionOfLive r) (he : f.Extends f') :
    f'.RegionOfLive r := by
  obtain ⟨op, d, hr, hd, hl⟩ := h
  exact ⟨op, d, he.region r _ hr, he.op op d hd, hl⟩

/-- The only op that may list such a region is alive. -/
theorem RegionOfLive.live {r : RegionId} (h : f.RegionOfLive r) (hs : f.Sound) (op : OpId) (d : Op)
    (hd : f.op? op = some d) (hr : r ∈ d.regions) : d.live = true := by
  obtain ⟨op', d', hr', hd', hl'⟩ := h
  have := hs.region op d r hd hr
  grind

end Func

namespace Edit

theorem createOp_extends (h : f.Sound) (kind : OpKind) (operands : List ValueId) (tys : List Ty)
    (count : Nat) :
    Keeps Sound (createOp kind operands tys count) f fun op f' =>
      f'.Sound ∧ f.Extends f' ∧ f'.Loose op ∧ f.op? op = none := by
  have hnew : f.op? ⟨f.ops.size⟩ = none := by simp [op?]
  refine .of_ok (a := ⟨f.ops.size⟩) (t := f.withOp kind operands tys count) rfl
    ⟨h.withOp .., ⟨fun x d hx => by grind, fun b d hb => ⟨d, hb, rfl, rfl⟩, fun r p hr => ?_, rfl⟩,
      ⟨_, by rw [op?_withOp, if_pos rfl], rfl, rfl⟩, hnew⟩
  obtain ⟨d, hd, -⟩ := Option.map_eq_some_iff.mp hr
  rwa [region?_withOp, if_pos (f.region?_size hd)]

theorem newBlock_extends (h : f.Sound) (tys : List Ty) :
    Keeps Sound (newBlock tys) f fun b f' =>
      f'.Sound ∧ f.Extends f' ∧ f'.Free b ∧ f.block? b = none := by
  have hnew : f.block? ⟨f.blocks.size⟩ = none := by simp [block?]
  exact .of_ok (newBlock_eq f tys) ⟨h.withBlock .., ⟨fun x d hx => hx, fun b d hb => by grind,
    fun r p hr => hr, rfl⟩, ⟨_, by rw [block?_withBlock, if_pos rfl], rfl, rfl⟩, hnew⟩

/-- Placing an op changes nothing but the op. -/
theorem appendOp_extends {f₀ : Func} {b : BlockId} {op : OpId} (h : f.Sound) (hb : f.LiveBlock b)
    (ho : f.Loose op) (he : f₀.Extends f) (hn : f₀.op? op = none) :
    Keeps Sound (appendOp b op) f fun _ f' => f'.Sound ∧ f₀.Extends f' := by
  have heq : Keeps Sound (appendOp b op) f fun _ f' =>
      f' = (f.atOp op fun d => { d with parent := some b }).atBlock b fun d =>
        { d with ops := d.ops ++ [op] } :=
    .bind (m := fun _ f' => f' = f.atOp op fun d => { d with parent := some b })
      (.modifyOp fun _ _ => rfl) fun _ f₁ hf₁ => hf₁ ▸ .modifyBlock fun _ _ => rfl
  refine ((appendOp_keeps h hb ho).and heq).mono ?_
  rintro _ f' ⟨⟨h', _⟩, hf'⟩
  refine ⟨h', ?_⟩
  subst hf'
  refine ⟨fun x d hx => ?_, fun c d hc => ?_, fun r p hr => he.region r p hr, he.body⟩
  · have := he.op x d hx
    grind
  · have := he.block c d hc
    grind

/-- Placing a block changes nothing but the block. -/
theorem appendBlock_extends {f₀ : Func} {r : RegionId} {b : BlockId} (h : f.Sound) (hb : f.Free b)
    (hr : f.RegionOfLive r) (he : f₀.Extends f) (hn : f₀.block? b = none) :
    Keeps Sound (appendBlock r b) f fun _ f' => f'.Sound ∧ f₀.Extends f' := by
  have heq : Keeps Sound (appendBlock r b) f fun _ f' =>
      f' = (f.atBlock b fun d => { d with parent := some r }).atRegion r fun d =>
        { d with blocks := d.blocks ++ [b] } :=
    .bind (m := fun _ f' => f' = f.atBlock b fun d => { d with parent := some r })
      (.modifyBlock fun _ _ => rfl) fun _ f₁ hf₁ => hf₁ ▸ .modifyRegion fun _ _ => rfl
  refine ((appendBlock_keeps h hb (hr.live h)).and heq).mono ?_
  rintro _ f' ⟨⟨h', _⟩, hf'⟩
  refine ⟨h', ?_⟩
  subst hf'
  refine ⟨fun x d hx => he.op x d hx, fun c d hc => ?_, fun q p hq => ?_, he.body⟩
  · have := he.block c d hc
    grind
  · have := he.region q p hq
    grind [Option.map_eq_some_iff]

/-- What copying a region into a region of a live op comes to. -/
def Copies (copyRegion : CloneMap → RegionId × RegionId → Edit CloneMap) : Prop :=
  ∀ {f : Func} (m : CloneMap) (r into : RegionId), f.Sound → f.RegionOfLive into →
    Keeps Sound (copyRegion m (r, into)) f fun _ f' => f'.Sound ∧ f.Extends f'

variable {copyRegion : CloneMap → RegionId × RegionId → Edit CloneMap}

theorem copyOp_keeps {into : BlockId} (hc : Copies copyRegion) (h : f.Sound)
    (hb : f.LiveBlock into) (m : CloneMap) (op : OpId) :
    Keeps Sound (copyOp copyRegion into m op) f fun _ f' => f'.Sound ∧ f.Extends f' := by
  refine .getOp fun d hd => .read (.mapM valueTy_reads _) h fun tys _ => ?_
  refine .bind (createOp_extends h ..) ?_
  rintro copy f₁ ⟨h₁, e₁, l₁, n₁⟩
  refine .bind (m := fun _ f' => f'.Sound ∧ f.Extends f' ∧ f'.Loose copy)
    (.modifyOp fun _ _ => ?_) ?_
  · refine ⟨h₁.inertOp fun _ => rfl, ⟨fun x e hx => ?_, e₁.block, e₁.region, e₁.body⟩, by grind⟩
    have := e₁.op x e hx
    grind
  rintro _ f₂ ⟨h₂, e₂, l₂⟩
  refine .getOp fun c hcopy => ?_
  have hlive : c.live = true := by grind
  refine .bind (m := fun _ f' => f'.Sound ∧ f₂.Extends f') (.foldlM ⟨h₂, .refl f₂⟩ ?_) ?_
  · rintro m' ⟨r, into'⟩ hp f' ⟨h', e'⟩
    have hreg := h₂.region copy c into' hcopy (List.of_mem_zip hp).2
    refine (hc m' r into' h' ⟨copy, c, e'.region _ _ hreg, e'.op _ _ hcopy, hlive⟩).mono ?_
    rintro _ f'' ⟨h'', e''⟩
    exact ⟨h'', e'.trans e''⟩
  · rintro m' f₃ ⟨h₃, e₃⟩
    exact .bind (appendOp_extends h₃ ((e₂.trans e₃).liveBlock hb) (e₃.loose l₂) (e₂.trans e₃) n₁)
      fun _ f₄ h₄ => .pure h₄

theorem copyBlock_keeps (hc : Copies copyRegion) (h : f.Sound) (m : CloneMap) (b : BlockId) :
    Keeps Sound (copyBlock copyRegion m b) f fun p f' =>
      f'.Sound ∧ f.Extends f' ∧ f'.Free p.1 ∧ f.block? p.1 = none := by
  refine .getBlock fun d hd => .read (.mapM valueTy_reads _) h fun tys _ => ?_
  refine .bind (newBlock_extends h tys) ?_
  rintro copy f₁ ⟨h₁, e₁, l₁, n₁⟩
  refine .getBlock fun c _ => .getBlock fun d' _ => ?_
  refine .bind (m := fun _ f' => f'.Sound ∧ f₁.Extends f') (.foldlM ⟨h₁, .refl f₁⟩ ?_) ?_
  · rintro m' op _ f' ⟨h', e'⟩
    obtain ⟨b', hb', -, hl'⟩ := e'.free l₁
    refine (copyOp_keeps hc h' ⟨b', hb', hl'⟩ m' op).mono ?_
    rintro _ f'' ⟨h'', e''⟩
    exact ⟨h'', e'.trans e''⟩
  · rintro m' f₂ ⟨h₂, e₂⟩
    exact .pure ⟨h₂, e₁.trans e₂, e₂.free l₁, n₁⟩

theorem copies_copyRegionTo (levels : Nat) : Copies (copyRegionTo levels) := by
  induction levels with
  | zero => exact fun _ _ _ _ _ => .stop (by simp)
  | succ levels ih =>
    intro f m r into h hr
    refine .getRegion fun d _ => .foldlM (m := fun f' => f'.Sound ∧ f.Extends f') ⟨h, .refl f⟩ ?_
    rintro m' b _ f₁ ⟨h₁, e₁⟩
    refine .bind (copyBlock_keeps ih h₁ m' b) ?_
    rintro p f₂ ⟨h₂, e₂, l₂, n₂⟩
    refine .bind (appendBlock_extends h₂ l₂ (hr.mono (e₁.trans e₂)) (e₁.trans e₂) ?_)
      fun _ f₃ h₃ => .pure h₃
    cases hn : f.block? p.1 with
    | none => rfl
    | some d =>
      have := e₁.block p.1 d hn
      grind

theorem copyBlocks_keeps (levels : Nat) (h : f.Sound) (m : CloneMap) (l : List BlockId) :
    Keeps Sound (copyBlocks levels m l) f fun p f' =>
      f'.Sound ∧ f.Extends f' ∧ (∀ b ∈ p.1, f'.Free b ∧ f.block? b = none) ∧ p.1.Nodup := by
  induction l generalizing f m with
  | nil => exact .pure ⟨h, .refl f, by simp, by simp⟩
  | cons b l ih =>
    refine .bind (copyBlock_keeps (copies_copyRegionTo levels) h m b) ?_
    rintro p f₁ ⟨h₁, e₁, l₁, n₁⟩
    refine .bind (ih h₁ p.2) ?_
    rintro q f₂ ⟨h₂, e₂, l₂, n₂⟩
    refine .pure ⟨h₂, e₁.trans e₂, ?_, ?_⟩
    · intro c hc
      obtain rfl | hc := List.mem_cons.mp hc
      · exact ⟨e₂.free l₁, n₁⟩
      · refine ⟨(l₂ c hc).1, ?_⟩
        have := (l₂ c hc).2
        have := e₁.block c
        cases hn : f.block? c <;> grind
    · refine List.nodup_cons.mpr ⟨fun hc => ?_, n₂⟩
      obtain ⟨d, hd, -⟩ := l₁
      have := (l₂ _ hc).2
      grind

/-- The copies are live blocks without an owner. -/
theorem cloneRegion_keeps (h : f.Sound) (r : RegionId) :
    Keeps Sound (cloneRegion r) f fun p f' =>
      f'.Sound ∧ f.Still f' ∧ (∀ b ∈ p.1, f'.Free b ∧ f.block? b = none) ∧ p.1.Nodup := by
  refine .get (.getRegion fun d _ => ?_)
  refine .bind (copyBlocks_keeps _ h {} d.blocks) ?_
  rintro p f₁ ⟨h₁, e₁, l₁, n₁⟩
  refine .bind (m := fun _ f' => f'.Sound ∧ f₁.Still f')
    (.forM (m := fun _ f' => f'.Sound ∧ f₁.Still f') ⟨h₁, .refl f₁⟩ ?_) ?_
  · rintro q _ f' ⟨h', s'⟩
    refine Keeps.mono (modifyOp_keeps h' fun _ => ?_) ?_
    · rfl
    · rintro _ f'' ⟨h'', s''⟩
      exact ⟨h'', s'.trans s''⟩
  · rintro _ f₂ ⟨h₂, s₂⟩
    refine .pure ⟨h₂, e₁.still.trans s₂, fun b hb => ?_, n₁⟩
    exact ⟨s₂.free b (l₁ b hb).1 (by simp), (l₁ b hb).2⟩

end Edit

end Unnest
