import Unnest.Proofs.Lowering.Opening
/-!
# Lowering branches, loops, switches and labelled blocks

What the lowering of each construct with regions, other than a try, makes of the tree. In all of
them the regions are laid out in order behind the block of the construct. `Opened` is the tree that
results when the ends of the regions and the construct itself have been replaced.
-/

namespace Unnest

/-- The body after a construct has been laid out: `front` stands for the construct, `inner` are the
blocks of its regions, and what follows it has moved to the block `next`. -/
def opened (σ : ValueId → ValueId) (L R : List BlockTree) (b : BlockId) (args : List ValueId)
    (pre post front : List OpTree) (inner : List BlockTree) (next : BlockId)
    (news : List ValueId) : List BlockTree :=
  L.map (.rename (.uses σ)) ++ ⟨b, args, pre.map (.rename (.uses σ)) ++ front⟩ ::
    (inner ++ ⟨next, news, post.map (.rename (.uses σ))⟩ :: R.map (.rename (.uses σ)))

section

variable {stop : Prop} {f : Func} {s : LowerState} {L R : List BlockTree} {b : BlockId}
  {args : List ValueId} {pre post : List OpTree} {x : OpTree} {h : Head} {e : Entries}

theorem Arena.regionOf {id : OpId} {d : Op} {i : Nat} {r : RegionId} (h : Arena f (.op id d + e))
    (hd : d.regions[i]? = some r) : Lower.regionOf id i f = .ok r f := by
  change EStateM.bind _ _ f = _
  rw [EStateM.bind, h.getOp]
  simp only [hd]
  rfl

/-- `σ` puts the new names `news` for the names `old`. -/
structure NewNames (f f' : Func) (old : List ValueId) (σ : ValueId → ValueId)
    (news : List ValueId) : Prop where
  types : List.Forall₂ (SameType f f') old news
  fresh : ∀ v ∈ news, f.values.size ≤ v.index
  eq : σ = replaced (old.zip news)

theorem NewNames.mono {f₀ f f' f'' : Func} {old news : List ValueId} {σ : ValueId → ValueId}
    (h : NewNames f f' old σ news) (g₀ : f₀.GrowsTo f) (g : f'.GrowsTo f'') :
    NewNames f₀ f'' old σ news where
  types := h.types.imp fun _ _ ht => ht.mono g₀ g
  fresh v hv := g₀.size_le.trans (h.fresh v hv)
  eq := h.eq

/-- The tree behind the split and the renaming. -/
theorem Func.Holds.continuation_opened
    (hf : f.Holds (L ++ ⟨b, args, pre ++ x :: post⟩ :: R) 0) :
    Meets stop (Lower.continuation x.id) f fun next f' => ∃ σ news,
      NewNames f f' x.head.results σ news ∧
        f'.Holds (opened σ L R b args pre post [x.rename (.uses σ)] [] next news) 0 ∧
          f.GrowsTo f' := by
  refine hf.continuation.mono ?_
  rintro next f' ⟨news, hty, hfresh, hf', g⟩
  refine ⟨_, news, ⟨hty, hfresh, rfl⟩, ?_, g⟩
  simpa [opened, BlockOf.rename_uses] using hf'

/-- The blocks of the next region are laid out. -/
theorem Func.Holds.inline_opened {σ : ValueId → ValueId} {inner blocks : List BlockTree}
    {next : BlockId} {news : List ValueId} {a c : List RegionTree} {q : RegionId}
    (hf : f.Holds (opened σ L R b args pre post [.mk h (a ++ ⟨q, blocks⟩ :: c)] inner next
      news) e) :
    Meets stop (Lower.inlineRegion q next) f fun ids f' => ids = blocks.map (·.id) ∧
      f'.Holds (opened σ L R b args pre post [.mk h (a ++ ⟨q, []⟩ :: c)] (inner ++ blocks) next
        news) e ∧ f.GrowsTo f' :=
  Func.Holds.inlineRegion (N := ⟨next, news, post.map (.rename (.uses σ))⟩) hf

@[simp] theorem BlockOf.id_mapEnd (p : OpKind → Bool) (g : Head → Head) (B : BlockTree) :
    (B.mapEnd p g).id = B.id := by
  unfold BlockOf.mapEnd
  split <;> rfl

@[simp] theorem BlockOf.id_yieldTo (target : BlockId) (B : BlockTree) :
    (B.yieldTo target).id = B.id := BlockOf.id_mapEnd ..

section Inner

variable {σ : ValueId → ValueId} {front : List OpTree} {I K Bs Bs' : List BlockTree}
  {next : BlockId} {news : List ValueId}

theorem Func.Holds.inner_arena
    (hf : f.Holds (opened σ L R b args pre post front (I ++ Bs ++ K) next news) e) :
    Arena f (layout (some f.body) ((L.map (.rename (.uses σ)) ++
      ⟨b, args, pre.map (.rename (.uses σ)) ++ front⟩ :: I) ++ Bs ++
        (K ++ ⟨next, news, post.map (.rename (.uses σ))⟩ :: R.map (.rename (.uses σ)))) +
          (.region f.body ⟨(opened σ L R b args pre post front (I ++ Bs ++ K) next news).map
            (·.id), none⟩ + e)) := by
  simpa [opened] using hf.arena

theorem Func.Holds.of_inner_arena {r : RegionId}
    (hf : Arena f (layout (some r) ((L.map (.rename (.uses σ)) ++
      ⟨b, args, pre.map (.rename (.uses σ)) ++ front⟩ :: I) ++ Bs' ++
        (K ++ ⟨next, news, post.map (.rename (.uses σ))⟩ :: R.map (.rename (.uses σ)))) +
          (.region r ⟨(opened σ L R b args pre post front (I ++ Bs ++ K) next news).map
            (·.id), none⟩ + e))) (hr : f.body = r) (hi : Bs'.map (·.id) = Bs.map (·.id)) :
    f.Holds (opened σ L R b args pre post front (I ++ Bs' ++ K) next news) e := by
  refine .of_arena (r := r) (by simpa [opened] using hf) hr ?_
  simp [opened, hi]

theorem Func.Holds.as_inner {J : List BlockTree}
    (hf : f.Holds (opened σ L R b args pre post front I next news) e) (hi : I = J) :
    f.Holds (opened σ L R b args pre post front J next news) e := hi ▸ hf

/-- The emptied construct is replaced. -/
theorem Func.Holds.replaceFront (kind : OpKind) (operands : List ValueId)
    (hf : s.func.Holds (opened σ L R b args pre post [x] I next news) e)
    (hx : ∀ r ∈ x.regions, r.blocks = []) :
    Meets stop (do
      let before ← Lower.blockOf x.id
      Edit.eraseOp x.id
      let _ ← Edit.emitAtEnd before kind operands [] : Lower Unit) s fun _ s' => ∃ id,
        s'.func.Holds (opened σ L R b args pre post [.leaf ⟨id, kind, operands, [], none⟩] I next
          news) e ∧ s.Edited s' := by
  unfold opened at hf ⊢
  exact hf.replaceNode hx

/-- The yields of the blocks of one region become branches. -/
theorem Func.Holds.yieldsTo_opened (target : BlockId)
    (hf : f.Holds (opened σ L R b args pre post front (I ++ Bs ++ K) next news) e) :
    Meets stop (Lower.yieldsTo (Bs.map (·.id)) target) f fun _ f' =>
      f'.Holds (opened σ L R b args pre post front
        (I ++ Bs.map (BlockOf.yieldTo target) ++ K) next news) e ∧ f.GrowsTo f' := by
  refine hf.inner_arena.yieldsTo.mono ?_
  rintro _ f' ⟨h', g⟩
  exact ⟨.of_inner_arena h' g.body (by simp [Function.comp_def]), g⟩

theorem ids_eq_of_ended {p : OpKind → Bool} {rel : BlockTree → BlockTree → Prop}
    (h : List.Forall₂ (Ended p rel) Bs Bs') : Bs'.map (·.id) = Bs.map (·.id) := by
  induction h with
  | nil => rfl
  | cons hB _ ih => simp [hB.1, ih]

/-- The conditions of the blocks of one region become conditional branches. -/
theorem Func.Holds.conditionsTo_opened {n : Nat} (thenTo elseTo : BlockId)
    (hn : n ≤ f.values.size) (hc : ¬(∀ B ∈ Bs, HasFlag f B) → stop)
    (hf : f.Holds (opened σ L R b args pre post front (I ++ Bs ++ K) next news) e) :
    Meets stop (Lower.conditionsTo (Bs.map (·.id)) thenTo elseTo) f fun _ f' => ∃ Bs',
      List.Forall₂ (Ended (· == .construct .condition) (Tested n thenTo elseTo f')) Bs Bs' ∧
        f'.Holds (opened σ L R b args pre post front (I ++ Bs' ++ K) next news) e ∧
          f.GrowsTo f' := by
  refine (hf.inner_arena.conditionsTo hn hc).mono ?_
  rintro _ f' ⟨Bs', hB, h', g⟩
  exact ⟨Bs', hB, .of_inner_arena h' g.body (ids_eq_of_ended hB), g⟩

theorem Func.Holds.loopTests_opened {n : Nat} (bodyTo : BlockId) (label : Option String)
    (hn : n ≤ f.values.size) (hc : ¬(∀ B ∈ Bs, HasFlag f B) → stop)
    (hf : f.Holds (opened σ L R b args pre post front (I ++ Bs ++ K) next news) e) :
    Meets stop (((Bs.filterMap (BlockOf.endWhere (Construct.forLoop label).isTest)).map
      (·.id)).forM fun term => Lower.lowerLoopTest bodyTo next term) f fun _ f' => ∃ Bs',
        List.Forall₂ (Ended (Construct.forLoop label).isTest (LoopTested n bodyTo next f')) Bs Bs' ∧
          f'.Holds (opened σ L R b args pre post front (I ++ Bs' ++ K) next news) e ∧
            f.GrowsTo f' := by
  refine (hf.inner_arena.loopTests hn hc label).mono ?_
  rintro _ f' ⟨Bs', hB, h', g⟩
  exact ⟨Bs', hB, .of_inner_arena h' g.body (ids_eq_of_ended hB), g⟩

theorem Func.Holds.mergesTo_opened (target : BlockId)
    (hf : f.Holds (opened σ L R b args pre post front (I ++ Bs ++ K) next news) e) :
    Meets stop (((Bs.filterMap (BlockOf.endWhere (· == .construct .merge))).map (·.id)).forM
      fun term => Lower.makeBranch term target []) f fun _ f' =>
        f'.Holds (opened σ L R b args pre post front
          (I ++ Bs.map (BlockOf.endTo (· == .construct .merge) target) ++ K) next news) e ∧
            f.GrowsTo f' := by
  refine hf.inner_arena.mergesTo.mono ?_
  rintro _ f' ⟨h', g⟩
  exact ⟨.of_inner_arena h' g.body (by simp [BlockOf.endTo, Function.comp_def]), g⟩

/-- The jumps that refer to a construct fit it: a `brk` needs a construct without results, and a
`cont` a target without arguments. -/
def JumpsFit (c : Construct) (results : List ValueId) (contArgs : Option (List ValueId))
    (Bs : List BlockTree) : Prop :=
  ∀ n ∈ blockJumps c {} Bs,
    match n.kind with
    | .construct (.brk _) => results = []
    | _ => contArgs = some []

theorem Func.Holds.bindJumps_opened {c : Construct} {continueTo : Option BlockTree}
    (hf : s.func.Holds (opened σ L R b args pre post front Bs next news) e)
    (hcont : ∀ B ∈ continueTo, B ∈ opened σ L R b args pre post front Bs next news)
    (hs : ¬JumpsFit c news (continueTo.map (·.args)) Bs → stop) :
    Meets stop (Lower.bindJumps c (Bs.map (·.id)) ⟨next, continueTo.map (·.id)⟩) s fun _ s' =>
      s' = { s with
        bindings := s.bindings.bindJumps ⟨next, continueTo.map (·.id)⟩ (blockJumps c {} Bs) } ∧
      JumpsFit c news (continueTo.map (·.args)) Bs := by
  have hargs : ∀ B ∈ opened σ L R b args pre post front Bs next news,
      s.func.block? B.id = some (B.toBlock (some s.func.body)) := by
    intro B hB
    have := hf.arena.left.of_mem hB
    rw [BlockOf.entries_eq] at this
    exact this.block?
  have hBs : Arena s.func (layout (some s.func.body) Bs) := by
    have := hf.arena.left
    rw [opened, layout_append, layout_cons, layout_append] at this
    exact this.right.right.left
  have hnext := hargs ⟨next, news, post.map (.rename (.uses σ))⟩ (by simp [opened])
  refine (hBs.bindJumps fun hacc => hs fun hfit => hacc fun n hn => ?_).mono fun _ s' hs' =>
    ⟨hs'.1, fun n hn => ?_⟩
  · have hn := hfit n hn
    split at hn
    · rename_i hk
      exact ⟨next, _, by rw [hk]; rfl, hnext, hn⟩
    · rename_i hk
      cases continueTo with
      | none => simp at hn
      | some B =>
        exact ⟨B.id, _, JumpTargets.target?_of_ne hk, hargs B (hcont B rfl), Option.some.inj hn⟩
  · obtain ⟨target, d, ht, hd, hnil⟩ := hs'.2 n hn
    split
    · rename_i hk
      rw [hk] at ht
      cases ht
      cases hnext.symm.trans hd
      exact hnil
    · rename_i hk
      rw [JumpTargets.target?_of_ne hk] at ht
      obtain ⟨B, rfl, rfl⟩ := Option.map_eq_some_iff.mp ht
      cases (hargs B (hcont B rfl)).symm.trans hd
      exact congrArg some hnil

end Inner

section Renamed

variable (σ : ValueId → ValueId)

theorem OpTree.jumpsTo_rename (c : Construct) (sh : Shadow) (n : OpTree) :
    (n.rename (.uses σ)).jumpsTo c sh = (n.jumpsTo c sh).map (.rename (.uses σ)) := by
  induction n using OpTree.induct generalizing sh with
  | step hd rs ih =>
    rw [OpTree.jumpsTo_eq, OpTree.jumpsTo_eq, List.map_append]
    congr 1
    · simp only [OpTree.kind_rename, Renaming.used_target, OpKind.mapSuccessors_id]
      split <;> simp
    · simp only [OpTree.regions_rename, OpTree.kind_rename, Renaming.used_target,
        OpKind.mapSuccessors_id, List.flatMap_map, List.map_flatMap, OpTree.regions_mk]
      refine List.flatMap_congr fun r hr => ?_
      simp only [blockJumps, RegionOf.blocks_rename, List.flatMap_map, List.map_flatMap]
      refine List.flatMap_congr fun B hB => ?_
      simp only [BlockOf.ops_rename, List.flatMap_map]
      exact List.flatMap_congr fun n hn => ih r hr B hB n hn _

theorem blockJumps_rename (c : Construct) (sh : Shadow) (Bs : List BlockTree) :
    blockJumps c sh (Bs.map (.rename (.uses σ))) =
      (blockJumps c sh Bs).map (.rename (.uses σ)) := by
  simp only [blockJumps, List.flatMap_map, List.map_flatMap, BlockOf.ops_rename,
    OpTree.jumpsTo_rename]

theorem bindJumps_rename (t : JumpTargets) (js : List OpTree) (B : Bindings) :
    B.bindJumps t (js.map (.rename (.uses σ))) = B.bindJumps t js := by
  simp [Bindings.bindJumps, List.foldl_map]

theorem jumpsFit_rename {c : Construct} {results : List ValueId}
    {contArgs : Option (List ValueId)} {Bs : List BlockTree} :
    JumpsFit c results contArgs (Bs.map (.rename (.uses σ))) ↔ JumpsFit c results contArgs Bs := by
  simp [JumpsFit, blockJumps_rename]

end Renamed

/-- Where control goes that enters some blocks, or `next` if there are none. -/
def entryTo (Bs : List BlockTree) (next : BlockId) : BlockId := (Bs.map (·.id)).head?.getD next

theorem entryTo_rename (σ : ValueId → ValueId) (Bs : List BlockTree) (next : BlockId) :
    entryTo (Bs.map (.rename (.uses σ))) next = entryTo Bs next := by
  simp [entryTo, Function.comp_def]

/-- What the lowering of a branch leaves. -/
structure LoweredBranch (s s' : LowerState) (L R : List BlockTree) (b : BlockId)
    (args : List ValueId) (pre post : List OpTree) (h : Head) (B₁ B₂ T' : List BlockTree) :
    Prop where
  edited : s.Edited s'
  result : ∃ cond rest flag casts σ next news id, h.operands = cond :: rest ∧
    Flag s.func.values.size s'.func h.span cond flag casts ∧
      NewNames s.func s'.func h.results σ news ∧
        T' = opened σ L R b args (pre ++ casts) post
          [.leaf ⟨id, .transfer (.condBr (entryTo B₁ next) (entryTo B₂ next) 0), [flag], [], none⟩]
          ((B₁ ++ B₂).map fun B => (B.rename (.uses σ)).yieldTo next) next news

theorem Func.Holds.lowerBranch {q₁ q₂ : RegionId} {B₁ B₂ : List BlockTree}
    (hf : s.func.Holds (L ++ ⟨b, args, pre ++ .mk h [⟨q₁, B₁⟩, ⟨q₂, B₂⟩] :: post⟩ :: R) 0)
    (h₁ : h.operands = [] → stop)
    (h₂ : ∀ cond rest, h.operands = cond :: rest → s.func.value? cond = none → stop)
    (h₃ : h.results ≠ [] → B₂ = [] → stop) :
    Meets stop (Lower.lowerBranch h.id) s fun _ s' => ∃ T', s'.func.Holds T' 0 ∧
      LoweredBranch s s' L R b args pre post h B₁ B₂ T' := by
  refine .editStep hf.arena.at_op.getOp ?_
  cases ho : h.operands with
  | nil =>
    simp only [OpTree.toOp, OpTree.head_mk, ho]
    exact .throw (h₁ ho)
  | cons cond rest =>
    simp only [OpTree.toOp, OpTree.head_mk, ho]
    refine .editStep (hf.arena.at_op.regionOf (r := q₁) rfl) ?_
    refine .editStep (hf.arena.at_op.regionOf (r := q₂) rfl) ?_
    have hflag := hf.arena.truthValue (Nat.le_refl s.func.values.size) (h₂ cond rest ho)
    refine .editBind hflag ?_
    rintro flag f₁ ⟨casts, hfl, hf₁, g₁⟩
    have hf₁' : f₁.Holds (L ++ ⟨b, args, pre ++ casts ++ .mk h [⟨q₁, B₁⟩, ⟨q₂, B₂⟩] :: post⟩ :: R)
        0 := .of_arena hf₁ g₁.body (by simp)
    have hcont : Meets stop _ _ _ := hf₁'.continuation_opened
    refine .editBind hcont ?_
    rintro next f₂ ⟨σ, news, hn, hf₂, g₂⟩
    rw [OpTree.rename_mk] at hf₂
    have hthen : Meets stop _ _ _ := hf₂.inline_opened (a := [])
    refine .editBind hthen ?_
    rintro _ f₃ ⟨rfl, hf₃, g₃⟩
    have helse : Meets stop _ _ _ := hf₃.inline_opened (a := [⟨q₁, []⟩])
    refine .editBind helse ?_
    rintro _ f₄ ⟨rfl, hf₄, g₄⟩
    split
    · rename_i hc
      refine .fail rfl ?_
      simp at hc
      exact h₃ hc.1 hc.2
    · have hy₁ : Meets stop _ _ _ := hf₄.yieldsTo_opened (I := []) next
      refine .editBind hy₁ ?_
      rintro _ f₅ ⟨hf₅, g₅⟩
      have hf₅' := hf₅.as_inner (J := (B₁.map fun B => (B.rename (.uses σ)).yieldTo next) ++
        B₂.map (.rename (.uses σ)) ++ []) (by simp [Function.comp_def])
      have hy₂ : Meets stop _ _ _ := hf₅'.yieldsTo_opened next
      refine .editBind hy₂ ?_
      rintro _ f₆ ⟨hf₆, g₆⟩
      have hf₆' := hf₆.as_inner (J := (B₁ ++ B₂).map fun B => (B.rename (.uses σ)).yieldTo next)
        (by simp [Function.comp_def])
      have hfront : Meets stop _ { s with func := f₆ } _ := Func.Holds.replaceFront
        (.transfer (.condBr (entryTo (B₁.map (.rename (.uses σ))) next)
          (entryTo (B₂.map (.rename (.uses σ))) next) 0)) [flag] hf₆' (by simp)
      have g : f₂.GrowsTo f₆ := ((g₃.trans g₄).trans g₅).trans g₆
      refine Meets.mono hfront ?_
      rintro _ s' ⟨id, hs', hed⟩
      rw [entryTo_rename, entryTo_rename] at hs'
      exact ⟨_, hs', ⟨hed.bindings, hed.stats, (g₁.trans (g₂.trans g)).trans hed.grows⟩,
        cond, rest, flag, casts, σ, next, news, id, ho, hfl.mono ((g₂.trans g).trans hed.grows),
        hn.mono g₁ (g.trans hed.grows), rfl⟩

end

end Unnest
