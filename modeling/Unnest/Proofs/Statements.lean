import Unnest.Proofs.Building
import Unnest.Source.Build
/-!
# What statements build

A computation of a builder `Builds` if it takes a function under construction to one, whatever ops
are still being filled, and leaves the regions that were there as they were. Filling a region adds
one block to it and whatever the statements in it add elsewhere, so a construct that fills its
regions one after the other ends with the regions of its kind (`Func.Filling`). By induction on the
syntax every statement builds, and what a whole program leaves has every op complete.
-/

namespace Unnest

open Func

variable {α β γ : Type} {f : Func} {under : OpId → Prop}

/-- A computation that adds to the function under construction. -/
def Builds (x : Build α) : Prop :=
  ∀ (under : OpId → Prop) (b : Builder), b.func.Building under →
    Keeps (fun b => b.func.Sound) x b fun _ b' => b'.func.Building under ∧ b.func.Kept b'.func

namespace Builds

variable {x : Build α}

theorem pure (a : α) : Builds (Pure.pure a : Build α) := fun _ _ h => .pure ⟨h, .refl _⟩

theorem bind {k : α → Build β} (h : Builds x) (hk : ∀ a, Builds (k a)) : Builds (x >>= k) := by
  intro under b hb
  refine .bind (h under b hb) ?_
  rintro a b₁ ⟨h₁, k₁⟩
  refine (hk a under b₁ h₁).mono ?_
  rintro _ b₂ ⟨h₂, k₂⟩
  exact ⟨h₂, k₁.trans k₂⟩

theorem get {k : Builder → Build α} (hk : ∀ b, Builds (k b)) : Builds (MonadState.get >>= k) :=
  fun under b hb => .get (hk b under b hb)

theorem reads (h : Reads x) : Builds x := fun _ _ hb => .reads h hb.sound fun _ _ => ⟨hb, .refl _⟩

/-- A change of the builder alone. -/
theorem update {g : Builder → Builder} (h : ∀ b, (g b).func = b.func) :
    Builds (modify g : Build PUnit) :=
  fun _ b hb => .update (by rw [h]; exact ⟨hb, .refl _⟩)

theorem mapM {k : γ → Build β} (h : ∀ c, Builds (k c)) (l : List γ) : Builds (l.mapM k) := by
  induction l with
  | nil => exact pure []
  | cons c l ih =>
    rw [List.mapM_cons]
    exact (h c).bind fun _ => ih.bind fun _ => pure _

theorem forM {k : γ → Build PUnit} (h : ∀ c, Builds (k c)) (l : List γ) : Builds (l.forM k) := by
  induction l with
  | nil => exact pure ()
  | cons c l ih => exact (h c).bind fun _ => ih

theorem mapOption {k : γ → Build β} (h : ∀ c, Builds (k c)) (o : Option γ) : Builds (o.mapM k) := by
  cases o with
  | none => exact pure none
  | some c => exact (h c).bind fun _ => pure _

end Builds

/-! ## Regions -/

/-- An op that was added to `f` and is being filled, with the number of blocks in each region. -/
structure Func.Filling (f f' : Func) (under : OpId → Prop) (op : OpId) (kind : OpKind)
    (sizes : List Nat) : Prop where
  building : f'.Building fun x => under x ∨ x = op
  kept : f.Kept f'
  regions : ∃ d, f'.op? op = some d ∧ d.kind = kind ∧ d.regions.Nodup ∧
    (∀ r ∈ d.regions, f.region? r = none) ∧ d.regions.map (fun r => (f'.blocksIn r).length) = sizes

/-- New blocks in regions that were not there at first. -/
theorem Func.Later.trans_fresh {f₁ f₂ : Func} {p : RegionId → Prop} (h₁ : f.Kept f₁)
    (h₂ : f₁.Later f₂ p) (hp : ∀ r, p r → f.region? r = none) : f.Kept f₂ where
  op x d h := by
    obtain ⟨d₁, hd₁, hr₁, hk₁⟩ := h₁.op x d h
    obtain ⟨d₂, hd₂, hr₂, hk₂⟩ := h₂.op x d₁ hd₁
    exact ⟨d₂, hd₂, hr₂.trans hr₁, hk₂.trans hk₁⟩
  region r d h hb hn := h₂.region r d (h₁.region r d h hb hn) (h₁.body ▸ hb) fun hr => by
    simp [hp r hr] at h
  body := h₂.body.trans h₁.body

/-- A region of an op keeps its blocks unless it is filled. -/
theorem Func.Building.blocksIn_later {f₁ f₂ : Func} {p : RegionId → Prop} {op : OpId} {d : Op}
    {r : RegionId} (h : f₁.Building under) (hl : f₁.Later f₂ p) (hd : f₁.op? op = some d)
    (hr : r ∈ d.regions) (hp : ¬ p r) : f₂.blocksIn r = f₁.blocksIn r := by
  obtain ⟨rd, hrd, hparent⟩ := Option.map_eq_some_iff.mp (h.sound.region op d r hd hr)
  have hbody := h.sound.body
  have hrb : r ≠ f₁.body := by grind
  simp only [blocksIn, hl.region r rd hrd hrb hp, hrd]

/-- One more block in the region at place `i`. -/
theorem Func.Filling.step {f₁ f₂ : Func} {op : OpId} {kind : OpKind} {sizes : List Nat} {i : Nat}
    {d : Op} {r : RegionId} (h : f.Filling f₁ under op kind sizes) (hd : f₁.op? op = some d)
    (hr : d.regions[i]? = some r) (hb : f₂.Building fun x => under x ∨ x = op)
    (hl : f₁.Later f₂ (· = r)) (hn : (f₂.blocksIn r).length = (f₁.blocksIn r).length + 1) :
    f.Filling f₂ under op kind (sizes.modify i (· + 1)) := by
  obtain ⟨d', hd', hkind, hnodup, hfresh, hsizes⟩ := h.regions
  obtain rfl := Option.some.inj (hd.symm.trans hd')
  obtain ⟨d₂, hd₂, hregions, hkind₂⟩ := hl.op op d hd
  refine ⟨hb, h.kept.trans_fresh hl fun q hq => hfresh q (hq ▸ List.mem_of_getElem? hr), d₂, hd₂,
    hkind₂.trans hkind, hregions ▸ hnodup, hregions ▸ hfresh, ?_⟩
  rw [hregions, ← hsizes]
  refine List.ext_getElem? fun j => ?_
  simp only [List.getElem?_map, List.getElem?_modify]
  by_cases hj : i = j
  · subst hj
    simp [hr, hn]
  · cases hq : d.regions[j]? with
    | none => simp
    | some q =>
      have hqr : q ≠ r := fun hqr => hj ((List.getElem?_inj (List.getElem?_eq_some_iff.mp hr).1
        hnodup).mp (by rw [hr, hq, hqr]))
      simp [hj, h.building.blocksIn_later hl hd (List.mem_of_getElem? hq) hqr]

/-- Additions elsewhere. -/
theorem Func.Filling.later {f₁ f₂ : Func} {op : OpId} {kind : OpKind} {sizes : List Nat}
    (h : f.Filling f₁ under op kind sizes) (hb : f₂.Building fun x => under x ∨ x = op)
    (hk : f₁.Kept f₂) : f.Filling f₂ under op kind sizes := by
  obtain ⟨d, hd, hkind, hnodup, hfresh, hsizes⟩ := h.regions
  obtain ⟨d₂, hd₂, hregions, hkind₂⟩ := hk.op op d hd
  refine ⟨hb, h.kept.trans hk, d₂, hd₂, hkind₂.trans hkind, hregions ▸ hnodup,
    hregions ▸ hfresh, ?_⟩
  rw [hregions, ← hsizes]
  refine List.map_congr_left fun r hr => ?_
  rw [h.building.blocksIn_later hk hd hr id]

namespace Build

variable {op : OpId} {kind : OpKind} {sizes : List Nat}

/-- Filling one region. -/
theorem inRegion_keeps {b : Builder} {i : Nat} {tys : List Ty} {body : List ValueId → Build α}
    (h : f.Filling b.func under op kind sizes) (hbody : ∀ args, Builds (body args)) :
    Keeps (fun b => b.func.Sound) (inRegion op i tys body) b fun _ b' =>
      f.Filling b'.func under op kind (sizes.modify i (· + 1)) := by
  refine .builtBind (m := fun d f' => f' = b.func ∧ b.func.op? op = some d)
    (Edit.getOp_keeps op) ?_
  rintro d f' ⟨hf', hd⟩
  subst hf'
  refine .read (.lift _) h.building.sound fun r hr => ?_
  replace hr : d.regions[i]? = some r := by
    cases hi : d.regions[i]? with
    | none => simp [hi, existing] at hr
    | some q => rw [hi] at hr; cases hr; rfl
  refine .builtBind (m := fun c f' => c = ⟨b.func.blocks.size⟩ ∧ f' = b.func.withBlock tys)
    (.of_ok rfl ⟨rfl, rfl⟩) ?_
  rintro c f' ⟨hc, hf'⟩
  subst hc hf'
  have howner : ∀ x e, b.func.op? x = some e → r ∈ e.regions → under x ∨ x = op := by
    intro x e hx hm
    have h₁ := h.building.sound.region x e r hx hm
    have h₂ := h.building.sound.region op d r hd (List.mem_of_getElem? hr)
    grind
  refine .builtBind (appendNew_keeps h.building tys r howner) ?_
  rintro _ f₁ ⟨h₁, l₁, n₁⟩
  refine .read (Edit.getBlock_reads _).built h₁.sound fun bd _ => .get ?_
  refine .bind (m := fun _ b' => b'.func = f₁) (.update rfl) fun _ b₁ hb₁ => ?_
  refine .bind (hbody _ _ b₁ (hb₁ ▸ h₁)) ?_
  rintro a b₂ ⟨h₂, k₂⟩
  refine .get ?_
  refine .bind (m := fun _ b' => b'.func = b₂.func) (.update rfl) fun _ b₃ hb₃ => .pure ?_
  rw [hb₁] at k₂
  rw [hb₃]
  refine h.step hd hr h₂ (l₁.trans (k₂.mono fun _ hf => hf.elim)) ?_
  obtain ⟨d₁, hd₁, hregions, -⟩ := l₁.op op d hd
  rw [h₁.blocksIn_later k₂ hd₁ (hregions ▸ List.mem_of_getElem? hr) id, n₁]
  simp

/-- A construct whose regions are all filled. -/
theorem fill_builds {x : OpId → Build α} (kind : OpKind) (operands : List ValueId) (tys : List Ty)
    (count : Nat) (sizes : List Nat)
    (hsizes : List.Forall₂ (fun n size => size.1 ≤ n ∧ n ≤ size.2) sizes kind.regionSizes)
    (hx : ∀ (f : Func) under op (b : Builder),
      f.Filling b.func under op kind (List.replicate count 0) →
      Keeps (fun b => b.func.Sound) (x op) b fun _ b' => f.Filling b'.func under op kind sizes) :
    Builds (opWithRegions kind operands tys count >>= x) := by
  intro under b hb
  refine .bind (opWithRegions_keeps hb kind operands tys count) ?_
  rintro op b₁ ⟨h₁, k₁, a₁⟩
  obtain ⟨d, hd, hkind, hlen, hnodup, hempty⟩ := a₁.regions
  refine (hx b.func under op b₁ ⟨h₁, k₁, d, hd, hkind, hnodup, fun r hr => (hempty r hr).2,
    ?_⟩).mono
    fun _ b₂ h₂ => ⟨h₂.building.close fun e he => .inr ?_, h₂.kept⟩
  · rw [← hlen]
    refine List.eq_replicate_iff.mpr ⟨by simp, fun n hn => ?_⟩
    obtain ⟨r, hr, rfl⟩ := List.mem_map.mp hn
    simp [blocksIn, (hempty r hr).1]
  · obtain ⟨e', he', hkind', -, -, hs⟩ := h₂.regions
    obtain rfl := Option.some.inj (he.symm.trans he')
    rw [hkind']
    rw [← hs] at hsizes
    exact List.forall₂_map_left_iff.mp hsizes

theorem op_builds (kind : OpKind) (operands : List ValueId) (tys : List Ty) :
    Builds (Build.op kind operands tys) := by
  intro under b hb
  refine (opWithRegions_keeps hb kind operands tys 0).mono ?_
  rintro op b₁ ⟨h₁, k₁, a₁⟩
  refine ⟨h₁.close fun e he => .inl ?_, k₁⟩
  obtain ⟨d, hd, -, hlen, -⟩ := a₁.regions
  obtain rfl := Option.some.inj (he.symm.trans hd)
  exact List.length_eq_zero_iff.mp hlen

/-- Whatever ends a block leaves the op that is being filled as it is. -/
theorem endFill_keeps {b : Builder} (h : f.Filling b.func under op kind sizes) (block : BlockId)
    (c : Construct) (operands : List ValueId) :
    Keeps (fun b => b.func.Sound) (endBlock block c operands) b fun _ b' =>
      f.Filling b'.func under op kind sizes := by
  refine (endBlock_keeps h.building block c operands).mono ?_
  rintro _ b' ⟨h₁, k₁⟩
  exact h.later h₁ k₁

theorem plainRegion_keeps {b : Builder} {i : Nat} {c : Construct} {body : Build Unit}
    (h : f.Filling b.func under op kind sizes) (hbody : Builds body) :
    Keeps (fun b => b.func.Sound) (plainRegion op i c body) b fun _ b' =>
      f.Filling b'.func under op kind (sizes.modify i (· + 1)) :=
  .bind (inRegion_keeps h fun _ => hbody) fun _ _ h₁ => endFill_keeps h₁ ..

theorem yieldRegion_keeps {b : Builder} {i : Nat} {tys : List Ty}
    {body : List ValueId → Build (List ValueId)}
    (h : f.Filling b.func under op kind sizes) (hbody : ∀ args, Builds (body args)) :
    Keeps (fun b => b.func.Sound) (yieldRegion op i tys body) b fun _ b' =>
      f.Filling b'.func under op kind (sizes.modify i (· + 1)) :=
  .bind (inRegion_keeps h hbody) fun _ _ h₁ => endFill_keeps h₁ ..

theorem conditionRegion_keeps {b : Builder} {i : Nat} {tys : List Ty}
    {cond : List ValueId → Build (ValueId × List ValueId)}
    (h : f.Filling b.func under op kind sizes) (hcond : ∀ args, Builds (cond args)) :
    Keeps (fun b => b.func.Sound) (conditionRegion op i tys cond) b fun _ b' =>
      f.Filling b'.func under op kind (sizes.modify i (· + 1)) :=
  .bind (inRegion_keeps h hcond) fun _ _ h₁ => endFill_keeps h₁ ..

/-! ## Constructs -/

theorem newBodyBlock_builds : Builds newBodyBlock := by
  intro under b hb
  refine .builtBind (m := fun c f' => c = ⟨b.func.blocks.size⟩ ∧ f' = b.func.withBlock [])
    (.of_ok rfl ⟨rfl, rfl⟩) ?_
  rintro c f' ⟨hc, hf'⟩
  refine .get ?_
  subst hc hf'
  refine .builtBind (appendNew_keeps hb [] b.func.body fun x d hx hr => ?_) ?_
  · have h₁ := hb.sound.region x d _ hx hr
    have h₂ := hb.sound.body
    grind
  · rintro _ f₁ ⟨h₁, l₁, _⟩
    exact .pure ⟨h₁, l₁.op, fun r d hr hrb _ => l₁.region r d hr hrb hrb, l₁.body⟩

theorem results_builds (kind : OpKind) (operands : List ValueId) (tys : List Ty) :
    Builds (results kind operands tys) :=
  (op_builds _ _ _).bind fun op => (Builds.reads (Edit.getOp_reads op).built).bind fun _ => .pure _

theorem valueOp_builds (kind : OpKind) (operands : List ValueId) (ty : Ty) :
    Builds (valueOp kind operands ty) :=
  (op_builds _ _ _).bind fun op => .reads (Edit.result_reads op).built

theorem mark_builds (c : Construct) (operands : List ValueId) : Builds (mark c operands) :=
  (op_builds _ _ _).bind fun _ => .pure _

theorem entry_builds : Builds entry := by
  refine .get fun _ => (op_builds _ _ _).bind fun op => ?_
  refine (Builds.reads (Edit.result?_reads op).built).bind fun retSlot => ?_
  exact (Builds.update (g := fun b => { b with retSlot }) fun _ => rfl).bind fun _ => .pure _

theorem load_builds (ptr : ValueId) : Builds (load ptr) :=
  (Builds.reads (Edit.valueTy_reads ptr).built).bind fun _ => valueOp_builds _ _ _

theorem binary_builds (operator : BinOp) (lhs rhs : ValueId) : Builds (binary operator lhs rhs) :=
  (Builds.reads (Edit.valueTy_reads lhs).built).bind fun _ => valueOp_builds _ _ _

theorem ifThen_builds {body : Build Unit} (hbody : Builds body) (cond : ValueId) :
    Builds (ifThen cond body) :=
  fill_builds _ _ _ _ [1, 0] (by simp [OpKind.regionSizes, Construct.regionSizes])
    fun _ _ _ _ h => plainRegion_keeps h hbody

theorem ifElse_builds {body alternative : Build Unit} (hbody : Builds body)
    (halt : Builds alternative) (cond : ValueId) : Builds (ifElse cond body alternative) :=
  fill_builds _ _ _ _ [1, 1] (by simp [OpKind.regionSizes, Construct.regionSizes])
    fun _ _ _ _ h => .bind (plainRegion_keeps h hbody) fun _ _ h₁ => plainRegion_keeps h₁ halt

theorem ifValues_builds {body alternative : Build (List ValueId)} (hbody : Builds body)
    (halt : Builds alternative) (cond : ValueId) (tys : List Ty) :
    Builds (ifValues cond tys body alternative) :=
  fill_builds _ _ _ _ [1, 1] (by simp [OpKind.regionSizes, Construct.regionSizes])
    fun _ _ op _ h => .bind (yieldRegion_keeps h fun _ => hbody) fun _ _ h₁ =>
      .bind (yieldRegion_keeps h₁ fun _ => halt) fun _ _ h₂ =>
        .read (Edit.getOp_reads op).built h₂.building.sound fun _ _ => .pure h₂

theorem whileLoop_builds {cond : Build ValueId} {body : Build Unit} (hcond : Builds cond)
    (hbody : Builds body) (label : Option String) : Builds (whileLoop label cond body) :=
  fill_builds _ _ _ _ [1, 1] (by simp [OpKind.regionSizes, Construct.regionSizes])
    fun _ _ _ _ h => .bind (conditionRegion_keeps h fun _ => hcond.bind fun _ => .pure _)
      fun _ _ h₁ => plainRegion_keeps h₁ hbody

theorem whileCarried_builds {cond : List ValueId → Build (ValueId × List ValueId)}
    {body : List ValueId → Build (List ValueId)} (hcond : ∀ args, Builds (cond args))
    (hbody : ∀ args, Builds (body args)) (label : Option String) (inits : List ValueId) :
    Builds (whileCarried label inits cond body) :=
  (Builds.mapM (fun v => .reads (Edit.valueTy_reads v).built) inits).bind fun tys =>
    fill_builds _ _ _ _ [1, 1] (by simp [OpKind.regionSizes, Construct.regionSizes])
      fun _ _ op _ h => .bind (conditionRegion_keeps h hcond) fun _ _ h₁ =>
        .bind (yieldRegion_keeps h₁ hbody) fun _ _ h₂ =>
          .read (Edit.getOp_reads op).built h₂.building.sound fun _ _ => .pure h₂

theorem doWhile_builds {body : Build Unit} {cond : Build ValueId} (hbody : Builds body)
    (hcond : Builds cond) (label : Option String) : Builds (doWhile label body cond) :=
  fill_builds _ _ _ _ [1, 1] (by simp [OpKind.regionSizes, Construct.regionSizes])
    fun _ _ _ _ h => .bind (plainRegion_keeps h hbody)
      fun _ _ h₁ => conditionRegion_keeps h₁ fun _ => hcond.bind fun _ => .pure _

theorem forLoop_builds {cond : Build (Option ValueId)} {body incr : Build Unit}
    (hcond : Builds cond) (hbody : Builds body) (hincr : Builds incr) (label : Option String) :
    Builds (forLoop label cond body incr) := by
  refine fill_builds _ _ _ _ [1, 1, 1] (by simp [OpKind.regionSizes, Construct.regionSizes])
    fun f under op b h => .bind (inRegion_keeps h fun _ => hcond) fun a b₁ h₁ => ?_
  have rest : ∀ b : Builder, f.Filling b.func under op (.construct (.forLoop label)) [1, 0, 0] →
      Keeps (fun b => b.func.Sound) (do
        plainRegion op 1 .yield body
        plainRegion op 2 .yield incr) b fun _ b' =>
          f.Filling b'.func under op (.construct (.forLoop label)) [1, 1, 1] :=
    fun b h => .bind (plainRegion_keeps h hbody) fun _ _ h₁ => plainRegion_keeps h₁ hincr
  obtain ⟨flag, last⟩ := a
  cases flag with
  | some flag => exact .bind (endFill_keeps h₁ ..) fun _ b₂ h₂ => rest b₂ h₂
  | none => exact .bind (endFill_keeps h₁ ..) fun _ b₂ h₂ => rest b₂ h₂

theorem switch_builds {body : Build Unit} (hbody : Builds body) (label : Option String) :
    Builds (switch label body) :=
  fill_builds _ _ _ _ [1] (by simp [OpKind.regionSizes, Construct.regionSizes])
    fun _ _ _ _ h => plainRegion_keeps h hbody

theorem labeled_builds {body : Build Unit} (hbody : Builds body) (label : String) :
    Builds (labeled label body) :=
  fill_builds _ _ _ _ [1] (by simp [OpKind.regionSizes, Construct.regionSizes])
    fun _ _ _ _ h => plainRegion_keeps h hbody

theorem tryCatch_builds {body catches final : Build Unit} (hbody : Builds body)
    (hcatches : Builds catches) (hfinal : Builds final) : Builds (tryCatch body catches final) :=
  fill_builds _ _ _ _ [1, 1, 1] (by simp [OpKind.regionSizes, Construct.regionSizes])
    fun _ _ _ _ h => .bind (plainRegion_keeps h hbody) fun _ _ h₁ =>
      .bind (plainRegion_keeps h₁ hcatches) fun _ _ h₂ => plainRegion_keeps h₂ hfinal

end Build

/-! ## Statements -/

namespace Source

theorem bindValue_builds (name : String) (v : ValueId) : Builds (bindValue name v) :=
  .update fun _ => rfl

theorem bindTo_builds {step : Build ValueId} (h : Builds step) (bind : Option String) :
    Builds (bindTo bind step) := by
  refine h.bind fun v => ?_
  split
  · exact bindValue_builds _ v
  · exact .pure _

theorem bindAll_builds (names : List String) (vs : List ValueId) : Builds (bindAll names vs) :=
  Builds.forM (fun p : String × ValueId => bindValue_builds p.1 p.2) (names.zip vs)

theorem Operand.resolve_reads (o : Operand) : Reads o.resolve := by
  cases o with
  | named name =>
    refine Reads.get.bind fun b => ?_
    split
    · exact .pure _
    · exact .throw _
  | id v => exact .pure v

theorem Place.resolve_reads (p : Place) : Reads p.resolve := by
  cases p with
  | named name =>
    refine Reads.get.bind fun b => ?_
    split
    · exact .pure _
    · exact .throw _
  | id b => exact .pure b

theorem Operand.resolve_builds (o : Operand) : Builds o.resolve := .reads o.resolve_reads

theorem resolveAll_builds (os : List Operand) : Builds (resolveAll os) :=
  .mapM Operand.resolve_builds os

theorem param_builds (index : Nat) : Builds (Build.param index) :=
  .reads (Reads.get.bind fun _ => (Reads.lift _).bind fun _ => .lift _)

mutual

theorem Stmt.build_builds (s : Stmt) : Builds s.build := by
  cases s with
  | entry bind =>
    rw [Stmt.build]
    refine Build.entry_builds.bind fun slot => ?_
    split
    · exact bindValue_builds _ _
    · exact .pure _
  | exit => exact Build.mark_builds _ _
  | param index bind => exact bindTo_builds (param_builds index) bind
  | constant value ty bind => exact bindTo_builds (Build.valueOp_builds _ _ _) bind
  | null bind => exact bindTo_builds (Build.valueOp_builds _ _ _) bind
  | var ty init bind =>
    rw [Stmt.build]
    exact (Builds.mapOption Operand.resolve_builds init).bind fun _ =>
      bindTo_builds (Build.valueOp_builds _ _ _) bind
  | load ptr bind =>
    rw [Stmt.build]
    exact ptr.resolve_builds.bind fun p => bindTo_builds (Build.load_builds p) bind
  | store value ptr =>
    rw [Stmt.build]
    exact value.resolve_builds.bind fun _ => ptr.resolve_builds.bind fun _ =>
      (Build.op_builds _ _ _).bind fun _ => .pure _
  | binary op lhs rhs bind =>
    rw [Stmt.build]
    exact lhs.resolve_builds.bind fun l => rhs.resolve_builds.bind fun r =>
      bindTo_builds (Build.binary_builds op l r) bind
  | call callee args results bind =>
    rw [Stmt.build]
    exact (resolveAll_builds args).bind fun _ => (Build.results_builds _ _ _).bind fun _ =>
      bindAll_builds _ _
  | callIndirect callee args results bind =>
    rw [Stmt.build]
    exact callee.resolve_builds.bind fun _ => (resolveAll_builds args).bind fun _ =>
      (Build.results_builds _ _ _).bind fun _ => bindAll_builds _ _
  | throw value =>
    rw [Stmt.build]
    exact value.resolve_builds.bind fun _ => Build.mark_builds _ _
  | ret => exact Build.mark_builds _ _
  | retVal value =>
    rw [Stmt.build]
    exact value.resolve_builds.bind fun _ =>
      (Builds.get fun _ => .pure _).bind fun _ => Build.mark_builds _ _
  | yieldVal value =>
    rw [Stmt.build]
    exact value.resolve_builds.bind fun _ =>
      (Builds.get fun _ => .pure _).bind fun _ => Build.mark_builds _ _
  | brk label => exact Build.mark_builds _ _
  | cont label => exact Build.mark_builds _ _
  | ifThen cond body =>
    rw [Stmt.build]
    exact cond.resolve_builds.bind fun c => Build.ifThen_builds (buildAll_builds body) c
  | ifElse cond body alternative =>
    rw [Stmt.build]
    exact cond.resolve_builds.bind fun c =>
      Build.ifElse_builds (buildAll_builds body) (buildAll_builds alternative) c
  | ifValues cond results body bodyValues alternative alternativeValues bind =>
    rw [Stmt.build]
    exact cond.resolve_builds.bind fun c => (Build.ifValues_builds
      ((buildAll_builds body).bind fun _ => resolveAll_builds _)
      ((buildAll_builds alternative).bind fun _ => resolveAll_builds _) c results).bind fun _ =>
        bindAll_builds _ _
  | whileLoop label cond flag body =>
    rw [Stmt.build]
    exact Build.whileLoop_builds ((buildAll_builds cond).bind fun _ => flag.resolve_builds)
      (buildAll_builds body) label
  | whileCarried label inits condArgs cond flag forward bodyArgs body next bind =>
    rw [Stmt.build]
    exact (resolveAll_builds inits).bind fun vs => (Build.whileCarried_builds
      (fun _ => (bindAll_builds _ _).bind fun _ => (buildAll_builds cond).bind fun _ =>
        flag.resolve_builds.bind fun _ => (resolveAll_builds forward).bind fun _ => .pure _)
      (fun _ => (bindAll_builds _ _).bind fun _ => (buildAll_builds body).bind fun _ =>
        resolveAll_builds next) label vs).bind fun _ => bindAll_builds _ _
  | doWhile label body cond flag =>
    rw [Stmt.build]
    exact Build.doWhile_builds (buildAll_builds body)
      ((buildAll_builds cond).bind fun _ => flag.resolve_builds) label
  | forLoop label cond flag body incr =>
    rw [Stmt.build]
    exact Build.forLoop_builds
      ((buildAll_builds cond).bind fun _ => .mapOption Operand.resolve_builds flag)
      (buildAll_builds body) (buildAll_builds incr) label
  | switch label body =>
    rw [Stmt.build]
    exact Build.switch_builds (buildAll_builds body) label
  | labeled label body =>
    rw [Stmt.build]
    exact Build.labeled_builds (buildAll_builds body) label
  | tryCatch body catches final =>
    rw [Stmt.build]
    exact Build.tryCatch_builds (buildAll_builds body) (buildAll_builds catches)
      (buildAll_builds final)
  | catchInto type var =>
    rw [Stmt.build]
    exact var.resolve_builds.bind fun _ => Build.mark_builds _ _
  | capture values fields bind =>
    rw [Stmt.build]
    exact (resolveAll_builds values).bind fun _ => bindTo_builds (Build.valueOp_builds _ _ _) bind
  | stateLabel => exact Build.mark_builds _ _
  | switchState state default =>
    rw [Stmt.build]
    exact state.resolve_builds.bind fun _ => (Builds.reads default.resolve_reads).bind fun _ =>
      Build.mark_builds _ _
  | newBlock bind =>
    rw [Stmt.build]
    refine Build.newBodyBlock_builds.bind fun block => ?_
    split
    · exact .update fun _ => rfl
    · exact .pure _
  | cursor block =>
    rw [Stmt.build]
    exact (Builds.reads block.resolve_reads).bind fun _ => .update fun _ => rfl
  | span span => exact .update fun _ => rfl
  | op kind operands results bind =>
    rw [Stmt.build]
    exact (resolveAll_builds operands).bind fun _ => (Build.results_builds _ _ _).bind fun _ =>
      bindAll_builds _ _

theorem buildAll_builds (l : List Stmt) : Builds (buildAll l) := by
  cases l with
  | nil => exact .pure ()
  | cons s rest =>
    rw [buildAll]
    exact (Stmt.build_builds s).bind fun _ => buildAll_builds rest

end

/-- A new function has its entry block only. -/
theorem building_new (name : String) (sig : Signature) :
    (Func.new name sig).Building fun _ => False := by
  have hop : ∀ x, (Func.new name sig).op? x = none := fun x => by simp [op?, Func.new]
  have hblock : ∀ b, (Func.new name sig).block? b = if b = ⟨0⟩ then
      some ⟨[], (List.range sig.params.length).map ValueId.mk, some ⟨0⟩, true⟩ else none := by
    rintro ⟨i⟩
    cases i <;> simp [block?, Func.new]
  have hregion : ∀ r, (Func.new name sig).region? r =
      if r = ⟨0⟩ then some ⟨[⟨0⟩], none⟩ else none := by
    rintro ⟨i⟩
    cases i <;> simp [region?, Func.new]
  have hbody : (Func.new name sig).body = ⟨0⟩ := rfl
  have harg : ∀ b d i v, (Func.new name sig).block? b = some d → d.args[i]? = some v →
      ((Func.new name sig).value? v).map (·.origin) = some (.blockArg b i) := by
    intro b d i v hb hv
    rw [hblock] at hb
    split at hb
    · rename_i hb0
      cases hb
      have hi : i < sig.params.length := by
        simpa using (List.getElem?_eq_some_iff.mp hv).1
      obtain rfl : ⟨i⟩ = v := by simpa [hi] using hv
      simp [value?, Func.new, hi, hb0]
    · cases hb
  refine ⟨⟨fun r b => ?_, fun r => ?_, fun b x => ?_, fun b => ?_, fun x => ?_, fun b => ?_,
    fun x => ?_, harg, fun x => ?_, ?_⟩, fun x => ?_, fun b => ?_, fun x => ?_, fun b => ?_,
    fun x => ?_, fun x => ?_, fun x => ?_⟩
  all_goals grind

/-- What a builder has made of a list of statements. -/
def built (name : String) (sig : Signature) (body : List Stmt) : Func :=
  (left (buildAll body) (Builder.new name sig)).func

theorem building_built (name : String) (sig : Signature) (body : List Stmt)
    (h : ends (buildAll body) (Builder.new name sig) = true) :
    (built name sig body).Building fun _ => False := by
  obtain ⟨_, hb, -⟩ := (buildAll_builds body _ _ (building_new name sig)).left h
  exact hb

/-- A try in the finally of another. -/
def guardedClose : List Stmt :=
  [.entry none, .tryCatch [.call "read" [] [] []] []
    [.tryCatch [.call "close" [] [] []] [] [.call "log" [] [] []]], .exit]

end Source

end Unnest
