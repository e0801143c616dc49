import Unnest.Proofs.Lowering.Ends
/-!
# Opening a construct

Every construct with regions is lowered by opening it first: the block is split behind the
construct, the results of the construct become arguments of the block behind it, and the blocks of
the regions are laid out in between. At the end the emptied construct is replaced by a branch.
-/

namespace Unnest

section

variable {stop : Prop} {f : Func} {L R : List BlockTree} {b : BlockId} {args : List ValueId}
  {pre post : List OpTree} {x : OpTree}

/-- The loop that makes arguments of the results. -/
theorem Func.Holds.bindResults {next : BlockId} (rs : List ValueId)
    (h : f.Holds (L ++ ⟨next, args, post⟩ :: R) 0) (hrs : ∀ v ∈ rs, f.value? v ≠ none) :
    Meets stop (rs.forM fun result => do
      let arg ← Edit.addBlockArg next (← Edit.valueTy result)
      Edit.replaceAllUses result arg) f fun _ f' => ∃ news,
        List.Forall₂ (SameType f f') rs news ∧ (∀ v ∈ news, f.values.size ≤ v.index) ∧
          f'.Holds ((L ++ ⟨next, args ++ news, post⟩ :: R).map
            (BlockOf.rename (.uses (replaced (rs.zip news))))) 0 ∧ f.GrowsTo f' := by
  induction rs generalizing f L R args post with
  | nil =>
    refine .pure ⟨[], .nil, by simp, ?_, .refl f⟩
    have hid := (List.map_congr_left fun b _ => BlockOf.rename_uses_id b).trans
      (List.map_id' (L ++ ⟨next, args, post⟩ :: R))
    change f.Holds (List.map (BlockOf.rename (.uses fun v => v)) _) 0
    rw [List.append_nil, hid]
    exact h
  | cons v rs ih =>
    obtain ⟨d, hd⟩ := Option.ne_none_iff_exists'.mp (hrs v (by simp))
    refine .bind (m := fun _ f' => ∃ new, SameType f f' v new ∧ f.values.size ≤ new.index ∧
      f'.Holds ((L ++ ⟨next, args ++ [new], post⟩ :: R).map
        (BlockOf.rename (.uses fun u => if u = v then new else u))) 0 ∧ f.GrowsTo f') ?_ ?_
    · refine .step (valueTy_eq hd) (.bind h.addBlockArg ?_)
      rintro new f₁ ⟨hnew, h₁, g₁⟩
      refine h₁.replaceAllUses.mono ?_
      rintro _ f₂ ⟨h₂, g₂⟩
      refine ⟨new, fun d' hd' => ⟨_, g₂.value?_of_some (hnew ▸ g₁.value?_new), ?_⟩,
        by simp [hnew], h₂, g₁.growsTo.trans g₂.growsTo⟩
      rw [hd] at hd'
      cases hd'
      rfl
    · rintro _ f₁ ⟨new, hty, hnew, h₁, g₁⟩
      have hrs₁ : ∀ u ∈ rs, f₁.value? u ≠ none := fun u hu => by
        obtain ⟨du, hdu⟩ := Option.ne_none_iff_exists'.mp (hrs u (by simp [hu]))
        simp [g₁.value?_of_some hdu]
      rw [List.map_append, List.map_cons, BlockOf.rename_uses] at h₁
      refine (ih h₁ hrs₁).mono ?_
      rintro _ f₂ ⟨news, hnews, hfresh, h₂, g₂⟩
      refine ⟨new :: news, .cons (hty.mono (.refl f) g₂) ?_, ?_, ?_, g₁.trans g₂⟩
      · exact hnews.imp fun _ _ h => h.mono g₁ (.refl f₂)
      · intro u hu
        rcases List.mem_cons.mp hu with rfl | hu
        · exact hnew
        · exact g₁.size_le.trans (hfresh u hu)
      · -- two renamings in turn are one
        have hcomp : ∀ B : BlockTree, (B.rename (.uses fun u => if u = v then new else u)).rename
            (.uses (replaced (rs.zip news))) =
              B.rename (.uses (replaced ((v :: rs).zip (new :: news)))) := fun B =>
          B.rename_uses_uses _ _
        have hnext := hcomp ⟨next, args ++ new :: news, post⟩
        rw [BlockOf.rename_uses _ next (args ++ new :: news) post] at hnext
        simp only [List.map_append, List.map_cons, List.map_map, Function.comp_def, hcomp,
          List.append_assoc, List.singleton_append] at h₂ ⊢
        rwa [hnext] at h₂

/-- The block is split behind a construct, and the results of the construct are renamed. -/
theorem Func.Holds.continuation (h : f.Holds (L ++ ⟨b, args, pre ++ x :: post⟩ :: R) 0) :
    Meets stop (Lower.continuation x.id) f fun next f' => ∃ news,
      List.Forall₂ (SameType f f') x.head.results news ∧ (∀ v ∈ news, f.values.size ≤ v.index) ∧
        f'.Holds ((L ++ ⟨b, args, pre ++ [x]⟩ :: ⟨next, news, post⟩ :: R).map
          (BlockOf.rename (.uses (replaced (x.head.results.zip news))))) 0 ∧ f.GrowsTo f' := by
  refine .bind h.splitAfter ?_
  rintro next f₁ ⟨h₁, g₁⟩
  refine .step h₁.arena.at_op.getOp ?_
  have h₁' : f₁.Holds ((L ++ [⟨b, args, pre ++ [x]⟩]) ++ ⟨next, [], post⟩ :: R) 0 := by
    simpa using h₁
  refine .bind (h₁'.bindResults x.head.results h₁.arena.at_op.results_exist) ?_
  rintro _ f₂ ⟨news, hty, hfresh, h₂, g₂⟩
  refine .pure ⟨news, ?_, ?_, ?_, g₁.growsTo.trans g₂⟩
  · exact hty.imp fun _ _ h => h.mono g₁.growsTo (.refl f₂)
  · exact fun v hv => g₁.growsTo.size_le.trans (hfresh v hv)
  · simpa using h₂

variable {e : Entries} {M : List BlockTree} {N : BlockTree} {h' : Head}
  {rs₁ rs₂ : List RegionTree} {q : RegionId} {blocks : List BlockTree}

/-- The blocks of a region are laid out before a block further on. -/
theorem Func.Holds.inlineRegion
    (h : f.Holds (L ++ ⟨b, args, pre ++ .mk h' (rs₁ ++ ⟨q, blocks⟩ :: rs₂) :: post⟩ ::
      (M ++ N :: R)) e) :
    Meets stop (Lower.inlineRegion q N.id) f fun a f' => a = blocks.map (·.id) ∧
      f'.Holds (L ++ ⟨b, args, pre ++ .mk h' (rs₁ ++ ⟨q, []⟩ :: rs₂) :: post⟩ ::
        (M ++ blocks ++ N :: R)) e ∧ f.GrowsTo f' := by
  refine .bind h.arena.takeNode ?_
  rintro a f₁ ⟨ha, h₁, g₁⟩
  have h₁' : f₁.Holds ((L ++ ⟨b, args, pre ++ .mk h' (rs₁ ++ ⟨q, []⟩ :: rs₂) :: post⟩ :: M) ++
      N :: R) (layout none blocks + e) :=
    .of_arena (h₁.as (d := layout (some f.body) ((L ++ ⟨b, args, pre ++
      .mk h' (rs₁ ++ ⟨q, []⟩ :: rs₂) :: post⟩ :: M) ++ N :: R) + (.region f.body ⟨_, none⟩ +
        (layout none blocks + e))) (by simp only [List.append_assoc, List.cons_append]; abel))
      g₁.body (by simp)
  rw [ha]
  refine .bind h₁'.spliceBefore ?_
  rintro _ f₂ ⟨h₂, g₂⟩
  refine .pure ⟨rfl, ?_, g₁.growsTo.trans g₂.growsTo⟩
  simpa using h₂

end

/-! ## Steps of a lowering -/

section

variable {stop : Prop} {s : LowerState} {e : Entries} {L R : List BlockTree} {b : BlockId}
  {args : List ValueId} {pre post : List OpTree} {x : OpTree}

/-- Only the function has changed between two states of a lowering. -/
structure LowerState.Edited (s s' : LowerState) : Prop where
  bindings : s'.bindings = s.bindings
  stats : s'.stats = s.stats
  grows : s.func.GrowsTo s'.func

theorem Func.Holds.blockOf (h : s.func.Holds (L ++ ⟨b, args, pre ++ x :: post⟩ :: R) e) :
    Lower.blockOf x.id s = .ok b s := by
  change EStateM.bind _ _ s = _
  rw [EStateM.bind, Edit.lower_ok h.arena.at_op.getOp]
  rfl

/-- An emptied construct at the end of its block is replaced. -/
theorem Func.Holds.replaceNode {kind : OpKind} {operands : List ValueId}
    (h : s.func.Holds (L ++ ⟨b, args, pre ++ [x]⟩ :: R) e) (hx : ∀ r ∈ x.regions, r.blocks = []) :
    Meets stop (do
      let before ← Lower.blockOf x.id
      Edit.eraseOp x.id
      let _ ← Edit.emitAtEnd before kind operands [] : Lower Unit) s fun _ s' => ∃ id,
        s'.func.Holds (L ++ ⟨b, args, pre ++ [.leaf ⟨id, kind, operands, [], none⟩]⟩ :: R) e ∧
          s.Edited s' := by
  refine .step h.blockOf (.editBind (h.arena.eraseNode hx) ?_)
  rintro _ f₁ ⟨h₁, g₁⟩
  rw [List.append_nil] at h₁
  refine .editBind h₁.emitAtEnd ?_
  rintro id f₂ ⟨h₂, g₂⟩
  refine .pure ⟨id, ?_, rfl, rfl, ?_⟩
  · exact .of_arena h₂ (g₂.body.trans g₁.body) (by simp)
  · exact g₁.growsTo.trans g₂.growsTo

/-! ## Binding jumps -/

/-- Where a jump of the given kind goes. -/
def JumpTargets.target? (t : JumpTargets) : OpKind → Option BlockId
  | .construct (.brk _) => some t.breakTo
  | _ => t.continueTo

theorem JumpTargets.target?_of_ne {t : JumpTargets} {k : OpKind}
    (hk : ∀ label, k ≠ .construct (.brk label)) : t.target? k = t.continueTo := by
  unfold JumpTargets.target?
  split
  · exact absurd rfl (hk _)
  · rfl

/-- The bindings with the given jumps bound. -/
def Bindings.bindJumps (t : JumpTargets) (js : List OpTree) (b : Bindings) : Bindings :=
  js.foldl (fun b n => (t.target? n.kind).elim b fun target => b.setJump n.id (.block target)) b

/-- A jump can be bound: its target exists and takes no values. -/
def JumpTargets.Accepts (t : JumpTargets) (f : Func) (n : OpTree) : Prop :=
  ∃ target d, t.target? n.kind = some target ∧ f.block? target = some d ∧ d.args = []

theorem Func.getBlock_eq {f : Func} {id : BlockId} {d : Block} (h : f.block? id = some d) :
    Edit.getBlock id f = .ok d f := by
  have : f.block id = .ok d := by simp [Func.block, existing, h]
  change (liftM (f.block id) : Edit Block) f = _
  rw [this]
  rfl

theorem Func.getBlock_eq_error {f : Func} {id : BlockId} (h : f.block? id = none) :
    Edit.getBlock id f = .error .outOfRange f := by
  have : f.block id = .error .outOfRange := by simp [Func.block, existing, h]
  change (liftM (f.block id) : Edit Block) f = _
  rw [this]
  rfl

/-- A jump is bound to a target that takes no values. -/
theorem Lower.settleJump {op : OpId} {target : BlockId}
    (hs : ¬(∃ d, s.func.block? target = some d ∧ d.args = []) → stop) :
    Meets stop (do
      let count := (← Edit.getBlock target).args.length
      if count ≠ 0 then
        throw (.contractAt op (.jumpNeedsValues target count))
      Lower.settle (·.setJump op (.block target)) : Lower Unit) s fun _ s' =>
        s' = { s with bindings := s.bindings.setJump op (.block target) } ∧
          ∃ d, s.func.block? target = some d ∧ d.args = [] := by
  cases hb : s.func.block? target with
  | none => exact .fail (Edit.lower_error (Func.getBlock_eq_error hb)) (hs (by simp [hb]))
  | some d =>
    refine .editStep (Func.getBlock_eq hb) ?_
    by_cases hd : d.args = []
    · simp only [hd, List.length_nil, ne_eq, not_true_eq_false, if_false]
      exact .update ⟨rfl, d, rfl, hd⟩
    · have hlen : d.args.length ≠ 0 := by simpa using hd
      simp only [ne_eq, hlen, not_false_eq_true, if_true]
      exact .throw (hs (by simp [hb, hd]))

theorem Arena.bindJump {n : OpTree} {b : BlockId} {targets : JumpTargets}
    (h : Arena s.func (n.entries b)) (hs : ¬targets.Accepts s.func n → stop) :
    Meets stop (Lower.bindJump targets n.id) s fun _ s' =>
      s' = { s with bindings := s.bindings.bindJumps targets [n] } ∧ targets.Accepts s.func n := by
  rw [OpTree.entries_eq] at h
  refine .editStep h.getKind ?_
  simp only [OpTree.toOp]
  split
  · rename_i hk
    refine .step rfl ((Lower.settleJump fun hd => hs ?_).mono fun _ s' hs' => ?_)
    · rintro ⟨target, d, ht, hd'⟩
      simp only [hk, JumpTargets.target?, Option.some.injEq] at ht
      exact hd ⟨d, ht ▸ hd'⟩
    · obtain ⟨hs', d, hd⟩ := hs'
      exact ⟨by simpa [Bindings.bindJumps, JumpTargets.target?, hk] using hs', _, d,
        by rw [hk]; rfl, hd⟩
  · rename_i block hc hk
    have htarget : targets.target? n.kind = some block := by
      rw [JumpTargets.target?_of_ne hk, hc]
    refine .step rfl ((Lower.settleJump fun hd => hs ?_).mono fun _ s' hs' => ?_)
    · rintro ⟨target, d, ht, hd'⟩
      rw [htarget, Option.some.injEq] at ht
      exact hd ⟨d, ht ▸ hd'⟩
    · obtain ⟨hs', d, hd⟩ := hs'
      exact ⟨by simpa [Bindings.bindJumps, htarget] using hs', block, d, htarget, hd⟩
  · rename_i hc hk
    refine .fail rfl (hs ?_)
    rintro ⟨target, d, ht, -⟩
    rw [JumpTargets.target?_of_ne hk, hc] at ht
    cases ht

theorem Arena.bindJumps {c : Construct} {targets : JumpTargets} {blocks : List BlockTree}
    {r : Option RegionId} (h : Arena s.func (layout r blocks))
    (hs : ¬(∀ n ∈ blockJumps c {} blocks, targets.Accepts s.func n) → stop) :
    Meets stop (Lower.bindJumps c (blocks.map (·.id)) targets) s fun _ s' =>
      s' = { s with bindings := s.bindings.bindJumps targets (blockJumps c {} blocks) } ∧
        ∀ n ∈ blockJumps c {} blocks, targets.Accepts s.func n := by
  obtain ⟨nest, hn, hm⟩ := h.readBlocks (descends_everywhere s.func)
  refine .step (t := s) (b := s.func) rfl (.step (t := s) (b := nest) ?_ ?_)
  · change (liftM (s.func.readBlocks Func.everywhere (blocks.map (·.id))) : Lower Nest.Blocks) s = _
    rw [hn]
    rfl
  rw [Nest.Blocks.jumpsTo_eq hm h]
  have hin : ∀ n ∈ blockJumps c {} blocks, n.InBlocks blocks :=
    fun n hn => inBlocks_of_mem_blockJumps hn
  generalize blockJumps c {} blocks = js at hs hin
  induction js generalizing s with
  | nil => exact .pure ⟨rfl, by simp⟩
  | cons n js ih =>
    obtain ⟨b, hb⟩ := (hin n (by simp)).entries h
    refine .bind (hb.bindJump fun hn => hs fun hall => hn (hall n (by simp))) ?_
    rintro _ _ ⟨rfl, hacc⟩
    refine (ih (s := { s with bindings := s.bindings.bindJumps targets [n] }) h hn
      (fun hall => hs fun hall' => hall fun m hm => hall' m (by simp [hm]))
      fun m hm => hin m (by simp [hm])).mono ?_
    rintro _ s' ⟨rfl, hrest⟩
    exact ⟨by simp [Bindings.bindJumps], List.forall_mem_cons.mpr ⟨hacc, hrest⟩⟩

end

end Unnest
