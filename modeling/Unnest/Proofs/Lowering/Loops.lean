import Unnest.Proofs.Lowering.Branching
/-!
# Lowering loops, switches and labelled blocks

The three loops are laid out alike and differ in the order of their regions and in where they
start. A jump that refers to the construct is bound to the block behind it or to the block that
goes on with it. A switch and a labelled block have one region and no test.
-/

namespace Unnest

/-- The blocks of the regions of a loop in the order in which they are laid out. -/
def loopBlocks (c : Construct) (cond body incr : List BlockTree) : List BlockTree :=
  match c with
  | .doWhile _ => body ++ cond
  | _ => cond ++ body ++ incr

/-- Where a loop starts. -/
def loopStart (c : Construct) (condTo bodyTo : BlockId) : BlockId :=
  match c with
  | .doWhile _ => bodyTo
  | _ => condTo

/-- The values a loop starts with; a counted loop has none. -/
def loopInits (c : Construct) (operands : List ValueId) : List ValueId :=
  match c with
  | .forLoop _ => []
  | _ => operands

/-- What the lowering of a loop leaves. Its condition consists of the blocks `C`, its body of `D`
and its increment, if it has one, of `I`. -/
structure LoweredLoop (s s' : LowerState) (c : Construct) (L R : List BlockTree) (b : BlockId)
    (args : List ValueId) (pre post : List OpTree) (h : Head) (C D I T' : List BlockTree) :
    Prop where
  stats : s'.stats = s.stats
  grows : s.func.GrowsTo s'.func
  result : ∃ σ next news id C' condTo bodyTo, NewNames s.func s'.func h.results σ news ∧
    (C.map (·.id)).head? = some condTo ∧ (D.map (·.id)).head? = some bodyTo ∧
      List.Forall₂ (Ended c.isTest (LoopTested s.func.values.size bodyTo next s'.func))
        (C.map (.rename (.uses σ))) C' ∧
      s'.bindings = s.bindings.bindJumps ⟨next, some (entryTo I condTo)⟩
        (blockJumps c {} (loopBlocks c C D I)) ∧
      T' = opened σ L R b args pre post [.leaf ⟨id, .transfer (.br (loopStart c condTo bodyTo)),
        loopInits c h.operands, [], none⟩] (loopBlocks c C'
          (D.map fun B => (B.rename (.uses σ)).yieldTo (entryTo I condTo))
          (I.map fun B => (B.rename (.uses σ)).yieldTo condTo)) next news
  jumps : JumpsFit c h.results ((I ++ C).head?.map (·.args)) (loopBlocks c C D I)

theorem head?_ids_append {I C : List BlockTree} {c : BlockId} (h : (C.map (·.id)).head? = some c) :
    ((I ++ C).map (·.id)).head? = some (entryTo I c) := by
  cases I with
  | nil => exact h
  | cons B I => rfl

section

variable {stop : Prop} {f f' : Func} {old news : List ValueId} {σ : ValueId → ValueId}

theorem replaced_value? {l : List (ValueId × ValueId)} {v : ValueId}
    (hl : ∀ p ∈ l, f.value? p.2 ≠ none) (hv : f.value? v ≠ none) :
    f.value? (replaced l v) ≠ none := by
  induction l generalizing v with
  | nil => exact hv
  | cons p l ih =>
    refine ih (fun q hq => hl q (by simp [hq])) ?_
    split
    · exact hl p (by simp)
    · exact hv

/-- A renamed value exists if all the old ones did. -/
theorem NewNames.value? (h : NewNames f f' old σ news) (ho : ∀ v ∈ old, f.value? v ≠ none)
    (g : f.GrowsTo f') {v : ValueId} (hv : f.value? v ≠ none) : f'.value? (σ v) ≠ none := by
  have hg : ∀ u, f.value? u ≠ none → f'.value? u ≠ none := fun u hu => by
    obtain ⟨d, hd⟩ := Option.ne_none_iff_exists'.mp hu
    simp [g.value?_of_some hd]
  rw [h.eq]
  refine replaced_value? (fun p hp => ?_) (hg v hv)
  have hty := List.forall₂_iff_zip.mp h.types |>.2 hp
  obtain ⟨d, hd⟩ := Option.ne_none_iff_exists'.mp (ho p.1 (List.of_mem_zip hp).1)
  obtain ⟨d', hd', -⟩ := hty d hd
  simp [hd']

theorem BlockOf.endWhere_rename (p : OpKind → Bool) (B : BlockTree) :
    (B.rename (.uses σ)).endWhere p = (B.endWhere p).map (.rename (.uses σ)) := by
  simp only [BlockOf.endWhere, BlockOf.ops_rename, List.getLast?_map]
  cases B.ops.getLast? with
  | none => rfl
  | some t => by_cases h : t.kind.isTerminator && p t.kind <;> simp [Option.filter_some, h]

theorem HasFlag.rename {B : BlockTree} (hB : HasFlag f B)
    (hσ : ∀ v, f.value? v ≠ none → f'.value? (σ v) ≠ none) : HasFlag f' (B.rename (.uses σ)) := by
  intro t ht
  rw [BlockOf.endWhere_rename, Option.map_eq_some_iff] at ht
  obtain ⟨t, ht, rfl⟩ := ht
  obtain ⟨cond, fwd, ho, hv⟩ := hB t ht
  exact ⟨σ cond, fwd.map σ, by simp [Head.rename, ho], hσ cond hv⟩

/-- It matters only whether there are results. -/
theorem jumpsFit_rename_news (σ : ValueId → ValueId) {c : Construct}
    {contArgs : Option (List ValueId)} {Bs : List BlockTree} (hn : old.length = news.length) :
    JumpsFit c news contArgs (Bs.map (.rename (.uses σ))) ↔ JumpsFit c old contArgs Bs := by
  have hnil : news = [] ↔ old = [] := by
    rw [← List.length_eq_zero_iff, ← List.length_eq_zero_iff, hn]
  rw [jumpsFit_rename]
  simp only [JumpsFit, hnil]

end

/-- What a loop needs to be lowered. -/
structure LoopReady (f : Func) (c : Construct) (h : Head) (C D I : List BlockTree) : Prop where
  cond : C ≠ []
  body : D ≠ []
  flags : ∀ B ∈ C, HasFlag f B
  jumps : JumpsFit c h.results ((I ++ C).head?.map (·.args)) (loopBlocks c C D I)

section

variable {stop : Prop} {f : Func} {s : LowerState} {L R : List BlockTree} {b : BlockId}
  {args : List ValueId} {pre post : List OpTree} {h : Head} {q₁ q₂ q₃ : RegionId}
  {C D I : List BlockTree}

theorem Lower.entryOf_rename {op : OpId} {what : String} {Bs : List BlockTree}
    (σ : ValueId → ValueId) (hB : Bs = [] → stop) :
    Meets stop (Lower.entryOf op ((Bs.map (BlockOf.rename (.uses σ))).map (·.id)) what) f
      fun b f' =>
      (Bs.map (·.id)).head? = some b ∧ f = f' := by
  cases Bs with
  | nil => exact .throw (hB rfl)
  | cons B Bs => exact .pure ⟨rfl, rfl⟩

/-- The jumps in the laid out blocks are bound; a `cont` goes to the first of the blocks `K`. -/
theorem Func.Holds.bindJumps_loop {c : Construct} {σ : ValueId → ValueId} {front : List OpTree}
    {next : BlockId} {news results : List ValueId} {e : Entries} {Bs K : List BlockTree}
    (hf : s.func.Holds (opened σ L R b args pre post front
      (Bs.map (.rename (.uses σ))) next news) e)
    (hK : K ⊆ Bs) (hn : results.length = news.length)
    (hs : ¬JumpsFit c results (K.head?.map (·.args)) Bs → stop) :
    Meets stop (Lower.bindJumps c ((Bs.map (BlockOf.rename (.uses σ))).map (·.id))
      ⟨next, (K.map (·.id)).head?⟩) s fun _ s' => s' = { s with
        bindings := s.bindings.bindJumps ⟨next, (K.map (·.id)).head?⟩ (blockJumps c {} Bs) } ∧
      JumpsFit c results (K.head?.map (·.args)) Bs := by
  have hmem : ∀ B ∈ K.head?.map (BlockOf.rename (.uses σ)),
      B ∈ opened σ L R b args pre post front (Bs.map (.rename (.uses σ))) next news := by
    intro B hB
    obtain ⟨B₀, hB₀, rfl⟩ := Option.mem_map.mp hB
    have : B₀ ∈ Bs := hK (List.mem_of_mem_head? hB₀)
    simp only [opened, List.mem_append, List.mem_cons, List.mem_map]
    exact .inr (.inr (.inl ⟨B₀, this, rfl⟩))
  have hargs : (K.head?.map (BlockOf.rename (.uses σ))).map (·.args) = K.head?.map (·.args) := by
    simp [Function.comp_def]
  have hbind := hf.bindJumps_opened hmem fun hfit => hs fun h => hfit (by
    rw [hargs]
    exact (jumpsFit_rename_news σ hn).mpr h)
  rw [blockJumps_rename, bindJumps_rename, hargs, jumpsFit_rename_news σ hn] at hbind
  simpa [Function.comp_def] using hbind

theorem Func.Holds.lowerWhile {label : Option String}
    (hf : s.func.Holds (L ++ ⟨b, args, pre ++ .mk h [⟨q₁, C⟩, ⟨q₂, D⟩] :: post⟩ :: R) 0)
    (hr : ¬LoopReady s.func (.whileLoop label) h C D [] → stop) :
    Meets stop (Lower.lowerWhile h.id (.whileLoop label)) s fun _ s' => ∃ T', s'.func.Holds T' 0 ∧
      LoweredLoop s s' (.whileLoop label) L R b args pre post h C D [] T' := by
  have hex := hf.arena.at_op.results_exist
  refine .editStep hf.arena.at_op.getOp ?_
  simp only [OpTree.toOp, OpTree.head_mk]
  refine .editStep (hf.arena.at_op.regionOf (r := q₁) rfl) ?_
  refine .editStep (hf.arena.at_op.regionOf (r := q₂) rfl) ?_
  have hcont : Meets stop _ _ _ := hf.continuation_opened
  refine .editBind hcont ?_
  rintro next f₁ ⟨σ, news, hn, hf₁, g₁⟩
  rw [OpTree.rename_mk] at hf₁
  have hcond : Meets stop _ _ _ := hf₁.inline_opened (a := [])
  refine .editBind hcond ?_
  rintro _ f₂ ⟨rfl, hf₂, g₂⟩
  have hbody : Meets stop _ _ _ := hf₂.inline_opened (a := [⟨q₁, []⟩])
  refine .editBind hbody ?_
  rintro _ f₃ ⟨rfl, hf₃, g₃⟩
  rw [List.nil_append] at hf₃
  refine .editBind (Lower.entryOf_rename σ fun hC => hr fun h => h.cond hC) ?_
  rintro condTo _ ⟨hcondTo, rfl⟩
  refine .editBind (Lower.entryOf_rename σ fun hD => hr fun h => h.body hD) ?_
  rintro bodyTo _ ⟨hbodyTo, rfl⟩
  rw [← List.map_append] at hf₃
  rw [← List.map_append, ← List.map_append, ← hcondTo]
  have hlen : h.results.length = news.length := hn.types.length_eq
  have hjumps : Meets stop _ { s with func := f₃ } _ :=
    Func.Holds.bindJumps_loop (c := .whileLoop label) (K := C) hf₃ (by simp) hlen
      fun hfit => hr fun h => hfit (by simpa [loopBlocks] using h.jumps)
  refine .bind hjumps ?_
  rintro _ _ ⟨rfl, hfits⟩
  have hflags : ¬(∀ B ∈ C.map (BlockOf.rename (.uses σ)), HasFlag f₃ B) → stop := fun hall =>
    hr fun h => hall fun B hB => by
      obtain ⟨B₀, hB₀, rfl⟩ := List.mem_map.mp hB
      exact (h.flags B₀ hB₀).rename fun v hv =>
        (hn.mono (.refl _) (g₂.trans g₃)).value? hex (g₁.trans (g₂.trans g₃)) hv
  have hf₃' := hf₃.as_inner (J := [] ++ C.map (.rename (.uses σ)) ++ D.map (.rename (.uses σ)))
    (by simp)
  have htests : Meets stop _ _ _ :=
    hf₃'.conditionsTo_opened bodyTo next (g₁.trans (g₂.trans g₃)).size_le hflags
  refine .editBind htests ?_
  rintro _ f₄ ⟨C', hC', hf₄, g₄⟩
  have hf₄' := hf₄.as_inner (J := C' ++ D.map (.rename (.uses σ)) ++ []) (by simp)
  have hyields : Meets stop _ _ _ := hf₄'.yieldsTo_opened condTo
  refine .editBind hyields ?_
  rintro _ f₅ ⟨hf₅, g₅⟩
  have hfront : ∀ bindings, Meets stop _ { s with func := f₅, bindings } _ := fun _ =>
    Func.Holds.replaceFront (.transfer (.br condTo)) h.operands hf₅ (by simp)
  refine Meets.mono (hfront _) ?_
  rintro _ s' ⟨id, hs', hed⟩
  have g : s.func.GrowsTo f₃ := g₁.trans (g₂.trans g₃)
  refine ⟨_, hs', hed.stats, (g.trans (g₄.trans g₅)).trans hed.grows,
    ⟨σ, next, news, id, C', condTo,
    bodyTo, hn.mono (.refl _) ((g₂.trans (g₃.trans (g₄.trans g₅))).trans hed.grows), hcondTo,
    hbodyTo, ?_, ?_, ?_⟩, by simpa [loopBlocks] using hfits⟩
  · exact hC'.imp fun B B' hB => hB.imp fun hE ht =>
      .of_tested hE (ht.mono (g₅.trans hed.grows))
  · rw [hed.bindings, hcondTo]
    simp [loopBlocks, entryTo]
  · simp [loopBlocks, loopStart, loopInits, entryTo, Function.comp_def]

theorem Func.Holds.lowerDoWhile {label : Option String}
    (hf : s.func.Holds (L ++ ⟨b, args, pre ++ .mk h [⟨q₁, D⟩, ⟨q₂, C⟩] :: post⟩ :: R) 0)
    (hr : ¬LoopReady s.func (.doWhile label) h C D [] → stop) :
    Meets stop (Lower.lowerDoWhile h.id (.doWhile label)) s fun _ s' => ∃ T', s'.func.Holds T' 0 ∧
      LoweredLoop s s' (.doWhile label) L R b args pre post h C D [] T' := by
  have hex := hf.arena.at_op.results_exist
  refine .editStep hf.arena.at_op.getOp ?_
  simp only [OpTree.toOp, OpTree.head_mk]
  refine .editStep (hf.arena.at_op.regionOf (r := q₁) rfl) ?_
  refine .editStep (hf.arena.at_op.regionOf (r := q₂) rfl) ?_
  have hcont : Meets stop _ _ _ := hf.continuation_opened
  refine .editBind hcont ?_
  rintro next f₁ ⟨σ, news, hn, hf₁, g₁⟩
  rw [OpTree.rename_mk] at hf₁
  have hbody : Meets stop _ _ _ := hf₁.inline_opened (a := [])
  refine .editBind hbody ?_
  rintro _ f₂ ⟨rfl, hf₂, g₂⟩
  have hcond : Meets stop _ _ _ := hf₂.inline_opened (a := [⟨q₁, []⟩])
  refine .editBind hcond ?_
  rintro _ f₃ ⟨rfl, hf₃, g₃⟩
  rw [List.nil_append] at hf₃
  refine .editBind (Lower.entryOf_rename σ fun hD => hr fun h => h.body hD) ?_
  rintro bodyTo _ ⟨hbodyTo, rfl⟩
  refine .editBind (Lower.entryOf_rename σ fun hC => hr fun h => h.cond hC) ?_
  rintro condTo _ ⟨hcondTo, rfl⟩
  rw [← List.map_append] at hf₃
  rw [← List.map_append, ← List.map_append, ← hcondTo]
  have hlen : h.results.length = news.length := hn.types.length_eq
  have hjumps : Meets stop _ { s with func := f₃ } _ :=
    Func.Holds.bindJumps_loop (c := .doWhile label) (K := C) hf₃ (by simp) hlen
      fun hfit => hr fun h => hfit (by simpa [loopBlocks] using h.jumps)
  refine .bind hjumps ?_
  rintro _ _ ⟨rfl, hfits⟩
  have hf₃' := hf₃.as_inner (J := [] ++ D.map (.rename (.uses σ)) ++ C.map (.rename (.uses σ)))
    (by simp)
  have hyields : Meets stop _ _ _ := hf₃'.yieldsTo_opened condTo
  refine .editBind hyields ?_
  rintro _ f₄ ⟨hf₄, g₄⟩
  have g : s.func.GrowsTo f₄ := g₁.trans (g₂.trans (g₃.trans g₄))
  have hflags : ¬(∀ B ∈ C.map (BlockOf.rename (.uses σ)), HasFlag f₄ B) → stop := fun hall =>
    hr fun h => hall fun B hB => by
      obtain ⟨B₀, hB₀, rfl⟩ := List.mem_map.mp hB
      exact (h.flags B₀ hB₀).rename fun v hv =>
        (hn.mono (.refl _) (g₂.trans (g₃.trans g₄))).value? hex g hv
  have hf₄' := hf₄.as_inner (J := (D.map fun B => (B.rename (.uses σ)).yieldTo condTo) ++
    C.map (.rename (.uses σ)) ++ []) (by simp [Function.comp_def])
  have htests : Meets stop _ _ _ := hf₄'.conditionsTo_opened bodyTo next g.size_le hflags
  refine .editBind htests ?_
  rintro _ f₅ ⟨C', hC', hf₅, g₅⟩
  have hfront : ∀ bindings, Meets stop _ { s with func := f₅, bindings } _ := fun _ =>
    Func.Holds.replaceFront (.transfer (.br bodyTo)) h.operands hf₅ (by simp)
  refine Meets.mono (hfront _) ?_
  rintro _ s' ⟨id, hs', hed⟩
  refine ⟨_, hs', hed.stats, (g.trans g₅).trans hed.grows, ⟨σ, next, news, id, C', condTo,
    bodyTo, hn.mono (.refl _) ((g₂.trans (g₃.trans (g₄.trans g₅))).trans hed.grows), hcondTo,
    hbodyTo, ?_, ?_, ?_⟩, by simpa [loopBlocks] using hfits⟩
  · exact hC'.imp fun B B' hB => hB.imp fun hE ht => .of_tested hE (ht.mono hed.grows)
  · rw [hed.bindings, hcondTo]
    simp [loopBlocks, entryTo]
  · simp [loopBlocks, loopStart, loopInits, entryTo]

theorem Func.Holds.lowerFor {label : Option String}
    (hf : s.func.Holds
      (L ++ ⟨b, args, pre ++ .mk h [⟨q₁, C⟩, ⟨q₂, D⟩, ⟨q₃, I⟩] :: post⟩ :: R) 0)
    (hr : ¬LoopReady s.func (.forLoop label) h C D I → stop) :
    Meets stop (Lower.lowerFor h.id (.forLoop label)) s fun _ s' => ∃ T', s'.func.Holds T' 0 ∧
      LoweredLoop s s' (.forLoop label) L R b args pre post h C D I T' := by
  have hex := hf.arena.at_op.results_exist
  refine .editStep (hf.arena.at_op.regionOf (r := q₁) rfl) ?_
  refine .editStep (hf.arena.at_op.regionOf (r := q₂) rfl) ?_
  refine .editStep (hf.arena.at_op.regionOf (r := q₃) rfl) ?_
  have hcont : Meets stop _ _ _ := hf.continuation_opened
  refine .editBind hcont ?_
  rintro next f₁ ⟨σ, news, hn, hf₁, g₁⟩
  rw [OpTree.rename_mk] at hf₁
  have hcond : Meets stop _ _ _ := hf₁.inline_opened (a := [])
  refine .editBind hcond ?_
  rintro _ f₂ ⟨rfl, hf₂, g₂⟩
  have hbody : Meets stop _ _ _ := hf₂.inline_opened (a := [⟨q₁, []⟩])
  refine .editBind hbody ?_
  rintro _ f₃ ⟨rfl, hf₃, g₃⟩
  have hincr : Meets stop _ _ _ := hf₃.inline_opened (a := [⟨q₁, []⟩, ⟨q₂, []⟩])
  refine .editBind hincr ?_
  rintro _ f₄ ⟨rfl, hf₄, g₄⟩
  rw [List.nil_append] at hf₄
  refine .editBind (Lower.entryOf_rename σ fun hC => hr fun h => h.cond hC) ?_
  rintro condTo _ ⟨hcondTo, rfl⟩
  refine .editBind (Lower.entryOf_rename σ fun hD => hr fun h => h.body hD) ?_
  rintro bodyTo _ ⟨hbodyTo, rfl⟩
  have hincrTo := head?_ids_append (I := I) hcondTo
  have hincrEq : ((I.map (BlockOf.rename (.uses σ))).map (·.id)).head?.getD condTo =
      entryTo I condTo := entryTo_rename σ I condTo
  simp only [hincrEq]
  rw [← List.map_append, ← List.map_append] at hf₄
  rw [← List.map_append, ← List.map_append, ← List.map_append, ← List.map_append, ← hincrTo]
  have hlen : h.results.length = news.length := hn.types.length_eq
  have hjumps : Meets stop _ { s with func := f₄ } _ :=
    Func.Holds.bindJumps_loop (c := .forLoop label) (K := I ++ C) hf₄ (by simp) hlen
      fun hfit => hr fun h => hfit h.jumps
  refine .bind hjumps ?_
  rintro _ _ ⟨rfl, hfits⟩
  have g : s.func.GrowsTo f₄ := g₁.trans (g₂.trans (g₃.trans g₄))
  have hflags : ¬(∀ B ∈ C.map (BlockOf.rename (.uses σ)), HasFlag f₄ B) → stop := fun hall =>
    hr fun h => hall fun B hB => by
      obtain ⟨B₀, hB₀, rfl⟩ := List.mem_map.mp hB
      exact (h.flags B₀ hB₀).rename fun v hv =>
        (hn.mono (.refl _) (g₂.trans (g₃.trans g₄))).value? hex g hv
  have hf₄' := hf₄.as_inner (J := [] ++ C.map (.rename (.uses σ)) ++
    (D.map (.rename (.uses σ)) ++ I.map (.rename (.uses σ)))) (by simp)
  have htests : Meets stop _ _ _ := hf₄'.loopTests_opened bodyTo label g.size_le hflags
  refine .editStep hf₄'.inner_arena.middle.terminatorsWhere (.editForM htests ?_)
  rintro _ f₅ ⟨C', hC', hf₅, g₅⟩
  have hf₅' := hf₅.as_inner (J := C' ++ D.map (.rename (.uses σ)) ++ I.map (.rename (.uses σ)))
    (by simp)
  have hyields : Meets stop _ _ _ := hf₅'.yieldsTo_opened (entryTo I condTo)
  refine .editBind hyields ?_
  rintro _ f₆ ⟨hf₆, g₆⟩
  have hf₆' := hf₆.as_inner (J := (C' ++ D.map fun B =>
    (B.rename (.uses σ)).yieldTo (entryTo I condTo)) ++ I.map (.rename (.uses σ)) ++ [])
    (by simp [Function.comp_def])
  have hyields' : Meets stop _ _ _ := hf₆'.yieldsTo_opened condTo
  refine .editBind hyields' ?_
  rintro _ f₇ ⟨hf₇, g₇⟩
  have hfront : ∀ bindings, Meets stop _ { s with func := f₇, bindings } _ := fun _ =>
    Func.Holds.replaceFront (.transfer (.br condTo)) [] hf₇ (by simp)
  refine Meets.mono (hfront _) ?_
  rintro _ s' ⟨id, hs', hed⟩
  have g' : f₅.GrowsTo s'.func := (g₆.trans g₇).trans hed.grows
  refine ⟨_, hs', hed.stats, g.trans (g₅.trans g'), ⟨σ, next, news, id, C', condTo,
    bodyTo, hn.mono (.refl _) ((g₂.trans (g₃.trans (g₄.trans g₅))).trans g'), hcondTo,
    hbodyTo, ?_, ?_, ?_⟩, hfits⟩
  · exact hC'.imp fun B B' hB => hB.imp fun _ ht => ht.mono g'
  · rw [hed.bindings, hincrTo]
    rfl
  · simp [loopBlocks, loopStart, loopInits, Function.comp_def]

/-! ## Switches and labelled blocks -/

/-- The block a `cont` goes to that names the construct; a switch takes none. -/
def mergingContinue (c : Construct) (Bs : List BlockTree) : List BlockTree :=
  match c with
  | .labeled _ => Bs
  | _ => []

/-- What the lowering of a switch or labelled block leaves. -/
structure LoweredMerging (s s' : LowerState) (c : Construct) (L R : List BlockTree) (b : BlockId)
    (args : List ValueId) (pre post : List OpTree) (h : Head) (Bs T' : List BlockTree) :
    Prop where
  stats : s'.stats = s.stats
  grows : s.func.GrowsTo s'.func
  result : ∃ σ next news id, NewNames s.func s'.func h.results σ news ∧
    s'.bindings = s.bindings.bindJumps ⟨next, ((mergingContinue c Bs).map (·.id)).head?⟩
      (blockJumps c {} Bs) ∧
    T' = opened σ L R b args pre post [.leaf ⟨id, .transfer (.br (entryTo Bs next)), [], [], none⟩]
      (Bs.map fun B => (B.rename (.uses σ)).endTo (· == .construct .merge) next) next news
  jumps : JumpsFit c h.results ((mergingContinue c Bs).head?.map (·.args)) Bs

/-- A labelled block without ops has no jumps to bind, so it does not matter where they would go. -/
theorem Lower.bindJumps_merging (c : Construct) (σ : ValueId → ValueId) (Bs : List BlockTree)
    (next : BlockId) :
    Lower.bindJumps c ((Bs.map (BlockOf.rename (.uses σ))).map (·.id))
      ⟨next, ((mergingContinue c Bs).map (·.id)).head?⟩ =
        Lower.bindJumps c ((Bs.map (BlockOf.rename (.uses σ))).map (·.id)) ⟨next, match c with
          | .labeled _ => some (entryTo Bs next)
          | _ => none⟩ := by
  cases Bs with
  | nil => rfl
  | cons B Bs => cases c <;> rfl

theorem Func.Holds.lowerMerging {c : Construct} {Bs : List BlockTree}
    (hf : s.func.Holds (L ++ ⟨b, args, pre ++ .mk h [⟨q₁, Bs⟩] :: post⟩ :: R) 0)
    (hr : ¬JumpsFit c h.results ((mergingContinue c Bs).head?.map (·.args)) Bs → stop) :
    Meets stop (Lower.lowerMerging h.id c) s fun _ s' => ∃ T', s'.func.Holds T' 0 ∧
      LoweredMerging s s' c L R b args pre post h Bs T' := by
  refine .editStep (hf.arena.at_op.regionOf (r := q₁) rfl) ?_
  have hcont : Meets stop _ _ _ := hf.continuation_opened
  refine .editBind hcont ?_
  rintro next f₁ ⟨σ, news, hn, hf₁, g₁⟩
  rw [OpTree.rename_mk] at hf₁
  have hbody : Meets stop _ _ _ := hf₁.inline_opened (a := [])
  refine .editBind hbody ?_
  rintro _ f₂ ⟨rfl, hf₂, g₂⟩
  rw [List.nil_append] at hf₂
  have hentry : ((Bs.map (BlockOf.rename (.uses σ))).map (·.id)).head?.getD next =
      entryTo Bs next := entryTo_rename σ Bs next
  have hlen : h.results.length = news.length := hn.types.length_eq
  have hjumps : Meets stop _ { s with func := f₂ } _ :=
    Func.Holds.bindJumps_loop (c := c) (K := mergingContinue c Bs) hf₂
      (by unfold mergingContinue; split <;> simp) hlen hr
  rw [Lower.bindJumps_merging] at hjumps
  simp only [hentry]
  refine .bind hjumps ?_
  rintro _ _ ⟨rfl, hfits⟩
  have hf₂' := hf₂.as_inner (J := [] ++ Bs.map (.rename (.uses σ)) ++ []) (by simp)
  have hmerges : Meets stop _ _ _ := hf₂'.mergesTo_opened next
  refine .editStep hf₂'.inner_arena.middle.terminatorsWhere (.editForM hmerges ?_)
  rintro _ f₃ ⟨hf₃, g₃⟩
  have hfront : ∀ bindings, Meets stop _ { s with func := f₃, bindings } _ := fun _ =>
    Func.Holds.replaceFront (.transfer (.br (entryTo Bs next))) [] hf₃ (by simp)
  refine Meets.mono (hfront _) ?_
  rintro _ s' ⟨id, hs', hed⟩
  refine ⟨_, hs', hed.stats, (g₁.trans (g₂.trans g₃)).trans hed.grows, ⟨σ, next, news, id,
    hn.mono (.refl _) ((g₂.trans g₃).trans hed.grows), hed.bindings, ?_⟩, hfits⟩
  simp [Function.comp_def]

end

end Unnest
