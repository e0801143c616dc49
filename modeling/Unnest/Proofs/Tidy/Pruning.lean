import Unnest.Proofs.Machine.Lockstep
import Unnest.Proofs.Tidy.Canonical
import Unnest.Proofs.Tidy.Pruned
/-!
# What pruning does

Where terminators stand last and lead to blocks of the body, the blocks that nothing needs are never
entered: what is left is as it was, passes the check of lowered functions if all did, and runs as
before, step by step. `prune_exact` puts this together.
-/

namespace Unnest

/-- A terminator of the body stands last in its block and leads to blocks of the body. -/
structure Func.FlowsWithin (f : Func) : Prop where
  last {b : BlockId} {x : OpId} {d : Op} : b ∈ f.blocksIn f.body → x ∈ f.opsIn b →
    f.op? x = some d → d.kind.isTerminator = true → (f.opsIn b).getLast? = some x
  within {b c : BlockId} {x : OpId} {d : Op} : b ∈ f.blocksIn f.body → x ∈ f.opsIn b →
    f.op? x = some d → c ∈ d.kind.successors → c ∈ f.blocksIn f.body

theorem Func.FlowsWithin.mem_leadsTo {f : Func} (h : f.FlowsWithin) {b c : BlockId} {x : OpId}
    {d : Op} (hb : b ∈ f.blocksIn f.body) (hx : x ∈ f.opsIn b) (hd : f.op? x = some d)
    (hc : c ∈ d.kind.successors) : c ∈ f.leadsTo b := by
  have hterm : d.kind.isTerminator = true := by
    by_contra hterm
    rw [OpKind.successors_of_not_isTerminator (by simpa using hterm)] at hc
    cases hc
  simpa [Func.leadsTo, h.last hb hx hd hterm, hd] using hc

/-! ## The check of a block -/

namespace Func.Agrees

variable {f f' : Func} {on : BlockId → Prop} {b : BlockId} {x : OpId} {d : Op}
  (h : f.Agrees f' on)

include h

theorem block_eq (hb : on b) : f'.block b = f.block b := by
  unfold Func.block
  rw [h.block? hb]

theorem kind_eq (hb : on b) (hx : x ∈ f.opsIn b) : f'.kind x = f.kind x := by
  unfold Func.kind Func.op
  rw [h.op? hb hx]

theorem checkArguments_eq (hd : ∀ c ∈ d.kind.successors, on c) :
    f'.checkArguments x d = f.checkArguments x d := by
  obtain ⟨kind, operands, results, regions, parent, span, live⟩ := d
  cases kind with
  | transfer t =>
    cases t with
    | condBr thenTo elseTo thenArgs =>
      unfold Func.checkArguments
      dsimp only
      rw [h.block_eq (hd thenTo (by simp [OpKind.successors, Transfer.successors])),
        h.block_eq (hd elseTo (by simp [OpKind.successors, Transfer.successors]))]
    | br target =>
      unfold Func.checkArguments
      dsimp only
      rw [h.block_eq (hd target (by simp [OpKind.successors, Transfer.successors]))]
    | _ => rfl
  | _ => rfl

/-- A block of functions that agree is checked alike, if the same regions are empty. -/
theorem checkBlock_eq (hbody : f'.body = f.body)
    (hregions : ∀ r, (f'.region? r).map (·.blocks.isEmpty) = (f.region? r).map (·.blocks.isEmpty))
    (hb : on b) : f'.checkBlock b = f.checkBlock b := by
  have hnested (x : OpId) (r : RegionId) :
      (do if !(← f'.region r).blocks.isEmpty then throw (.internalAt x .nestedBlocks) :
        Except Stop Unit) =
      (do if !(← f.region r).blocks.isEmpty then throw (.internalAt x .nestedBlocks)) := by
    have hr := hregions r
    unfold Func.region
    cases hrd : f.region? r with
    | none =>
      rw [hrd, Option.map_none, Option.map_eq_none_iff] at hr
      rw [hr]
    | some rd =>
      rw [hrd, Option.map_some] at hr
      obtain ⟨rd', hrd', hempty⟩ := Option.map_eq_some_iff.mp hr
      rw [hrd']
      change (if !rd'.blocks.isEmpty then _ else _) = if !rd.blocks.isEmpty then _ else _
      rw [hempty]
  have hedge (x : OpId) {c : BlockId} (hc : on c) : f'.checkEdge x c = f.checkEdge x c := by
    unfold Func.checkEdge
    rw [h.block_eq hc, hbody]
  have hop : ∀ x ∈ f.opsIn b, f'.checkOp x = f.checkOp x := by
    intro x hx
    unfold Func.checkOp Func.op
    rw [h.op? hb hx]
    cases hd : f.op? x with
    | none => rfl
    | some d =>
      have hsucc : ∀ c ∈ d.kind.successors, on c := fun c hc => h.closed hb hx hd hc
      change (do
        if d.kind.isStructured then throw (.internalAt x (.structuredLeft d.kind))
        d.regions.forM fun r => do
          if !(← f'.region r).blocks.isEmpty then throw (.internalAt x .nestedBlocks)
        d.kind.successors.forM (f'.checkEdge x)
        f'.checkArguments x d : Except Stop Unit) = _
      rw [forM_eq_of_mem fun r _ => hnested x r,
        forM_eq_of_mem fun c hc => hedge x (hsucc c hc), h.checkArguments_eq hsucc]
      rfl
  have hinner : ∀ x ∈ f.opsIn b, f'.checkInner b x = f.checkInner b x := by
    intro x hx
    unfold Func.checkInner
    rw [h.kind_eq hb hx]
  unfold Func.checkBlock
  rw [h.block_eq hb]
  cases hbd : f.block? b with
  | none => simp [Func.block, hbd, existing, bind, Except.bind]
  | some bd =>
    have hops : f.opsIn b = bd.ops := by simp [Func.opsIn, hbd]
    rw [hops] at hop hinner
    rw [Func.block_of_eq hbd]
    cases hlast : bd.ops.getLast? with
    | none => simp [hlast, bind, Except.bind]
    | some last =>
      have hkind : f'.kind last = f.kind last :=
        h.kind_eq hb (by rw [hops]; exact List.mem_of_getLast? hlast)
      simp only [hlast, hkind, bind, Except.bind, forM_eq_of_mem hop,
        forM_eq_of_mem fun x hx => hinner x (List.mem_of_mem_dropLast hx)]

end Func.Agrees

/-! ## Pruning -/

namespace Tidy

variable {f f' : Func} {gone : List BlockId} {b : BlockId}

namespace Pruned

variable (h : Pruned f gone f')

include h

/-- The blocks that are left are the same, and lead to one another only. -/
theorem agrees (hf : f.Owned) (hflow : f.FlowsWithin) (hcut : Severed f gone) :
    f.Agrees f' fun b => b ∈ f.blocksIn f.body ∧ b ∉ gone where
  name := by rw [h.outline]
  value? := h.value?
  start := by
    have hhead := h.head?_blocksIn
    have hr := h.region? f.body
    rw [h.body] at hhead ⊢
    unfold Func.blocksIn at hhead
    cases hrd : f.region? f.body with
    | none =>
      rw [hrd] at hr
      rw [hr]
      rfl
    | some rd =>
      rw [hrd, Option.map_some] at hr
      rw [hrd, hr] at hhead
      rw [hr]
      exact congrArg some hhead
  entry hb := ⟨List.mem_of_mem_head? hb, h.entry _ hb⟩
  block? {b} hb := by
    rw [h.block? b]
    simp [hb.2]
  op? hb hx := h.op?_of_mem hf hb.2 hx
  closed hb hx hd hc :=
    ⟨hflow.within hb.1 hx hd hc, hcut _ hb.1 hb.2 _ (hflow.mem_leadsTo hb.1 hx hd hc)⟩

/-- The same regions hold no blocks: the body keeps its entry. -/
theorem isEmpty_blocks (r : RegionId) :
    (f'.region? r).map (·.blocks.isEmpty) = (f.region? r).map (·.blocks.isEmpty) := by
  rw [h.region? r, Option.map_map]
  refine Option.map_congr fun rd hrd => ?_
  dsimp only [Function.comp]
  split
  case isFalse => rfl
  case isTrue hr =>
    subst hr
    cases hblocks : rd.blocks with
    | nil => rfl
    | cons b rest =>
      have hb : b ∉ gone := h.entry b (by simp [Func.blocksIn, hrd, hblocks])
      simp [hb]

/-- What is left passes the check if all did. -/
theorem checkLowered (hf : f.Owned) (hbody : ∃ d, f.region? f.body = some d)
    (hflow : f.FlowsWithin) (hcut : Severed f gone) (hcheck : f.checkLowered = .ok ()) :
    f'.checkLowered = .ok () := by
  have hsplit {g : Func} (hg : ∃ d, g.region? g.body = some d) : g.checkLowered =
      if (g.blocksIn g.body).isEmpty then .error (.internal (.emptyBody g.name))
      else (g.blocksIn g.body).forM g.checkBlock := by
    unfold Func.checkLowered
    rw [Func.bodyBlocks_eq hg]
    change (if (g.blocksIn g.body).isEmpty then _ else _) = _
    split <;> rfl
  have hagrees := h.agrees hf hflow hcut
  rw [hsplit hbody] at hcheck
  rw [hsplit (h.isListed hf hbody).body]
  split at hcheck
  case isTrue => cases hcheck
  case isFalse hne =>
    obtain ⟨b, rest, hblocks⟩ := List.exists_cons_of_ne_nil (by simpa using hne)
    have hb : b ∉ gone := h.entry b (by simp [hblocks])
    have hne' : (f'.blocksIn f'.body).isEmpty = false := by
      simp [h.blocksIn_body, hblocks, hb]
    rw [if_neg (by simp [hne'])]
    refine forM_eq_ok_iff.mpr fun c hc => ?_
    have hc' := h.mem_blocksIn.mp hc
    rw [hagrees.checkBlock_eq h.body h.isEmpty_blocks hc']
    exact forM_eq_ok_iff.mp hcheck c hc'.1

/-- The blocks that nothing needs are gone, if no block that is left is dead. -/
theorem mem_of_unneeded (hf : f.Owned) (hbody : ∃ d, f.region? f.body = some d)
    (hdead : f'.deadBlocks = .ok []) (hb : f.Unneeded b) : b ∈ gone := by
  induction hb with
  | @intro b hb hentry htrivial hleads ih =>
    by_contra hgone
    have hdead' : f'.deadAt b = true :=
      (h.deadAt_iff hf hgone).mpr ⟨hentry, fun c hc hc' hbc => hc' (ih c hc hbc), htrivial⟩
    have hnone := (h.isListed hf hbody).deadBlocks_eq.symm.trans hdead
    rw [Except.ok.injEq, List.filter_eq_nil_iff] at hnone
    exact hnone b (h.mem_blocksIn.mpr ⟨hb, hgone⟩) hdead'

end Pruned

/-- Pruning takes out the blocks that nothing needs, and counts them. All else is left as it is and
in its order, passes the check if it passed before, and has nothing more to prune. Every call of
every program with the function gives and leaves the same, with the same number of steps. -/
theorem prune_exact (hf : f.Owned) (hbody : ∃ d, f.region? f.body = some d) (hflow : f.FlowsWithin)
    (hstubs : f.BareStubs) :
    ∃ (gone : List BlockId) (f' : Func), prune f = .ok gone.length f' ∧ gone.Nodup ∧
      (∀ b, b ∈ gone ↔ f.Unneeded b) ∧
      f'.blocksIn f'.body = (f.blocksIn f.body).filter (· ∉ gone) ∧
      (∀ b, f'.block? b = (f.block? b).map fun d => if b ∈ gone then d.dead else d) ∧
      (∀ x, f'.op? x = (f.op? x).map fun d =>
        if x ∈ gone.flatMap f.opsIn then d.dead else d) ∧
      (f.checkLowered = .ok () → f'.checkLowered = .ok ()) ∧ prune f' = .ok 0 f' ∧
      ∀ (p : Program) (pre post : List Func), p.funcs = pre ++ f :: post →
        ∀ limit name args s, Machine.run { p with funcs := pre ++ f' :: post } limit name args s =
          Machine.run p limit name args s := by
  obtain ⟨gone, f', hrun, h, hcut, hneed, hdead⟩ := prune_pruned hf hbody hstubs
  refine ⟨gone, f', hrun, h.once, fun b => ⟨hneed b, h.mem_of_unneeded hf hbody hdead⟩,
    h.blocksIn_body, h.block?, h.op?, h.checkLowered hf hbody hflow hcut,
    prune_of_deadBlocks (h.isListed hf hbody).body hdead, ?_⟩
  intro p pre post hp limit name args s
  have hagrees := h.agrees hf hflow hcut
  refine Machine.run_eq ((counterparts_of_split hp hagrees.name).mono ?_)
  rintro g g' (rfl | ⟨rfl, rfl⟩)
  · exact ⟨_, .refl _⟩
  · exact ⟨_, hagrees⟩

/-- A call that returns, a chain of blocks that nothing leads to and a block that leads to
itself. -/
def strayChain : Func :=
  Source.built "f" ⟨[], .i32⟩ [.newBlock (some "next"), .newBlock (some "stray"),
    .newBlock (some "over"),
    .newBlock (some "end"), .newBlock (some "loop"), .constant (.int 7) .i32 (some "seven"),
    .op (.transfer (.br ⟨1⟩)) [] [] [], .cursor (.named "next"),
    .op (.transfer .ret) [.named "seven"] [] [], .cursor (.named "stray"),
    .op (.transfer (.br ⟨3⟩)) [] [] [], .cursor (.named "over"),
    .op (.transfer (.br ⟨4⟩)) [] [] [], .cursor (.named "end"),
    .op (.transfer .unreachable) [] [] [], .cursor (.named "loop"),
    .op (.transfer (.br ⟨5⟩)) [] [] []]

/-- The chain goes, round by round, and the block that leads to itself stays. -/
theorem prune_exact_strayChain :
    strayChain.Owned ∧ strayChain.FlowsWithin ∧ strayChain.BareStubs ∧
    strayChain.checkLowered = .ok () ∧
    ∃ f', prune strayChain = .ok 3 f' ∧ f'.blocksIn f'.body = [⟨0⟩, ⟨1⟩, ⟨5⟩] ∧
      f'.checkLowered = .ok () ∧ prune f' = .ok 0 f' ∧
      ∃ t, Machine.run { name := "m", funcs := [f'] } 4 "f" [] {} =
        .ok (.returned (some (.int 7))) t := by
  have howned : strayChain.Owned :=
    (Func.Reachable.built "f" ⟨[], .i32⟩ _ (leaves_left (by decide +kernel))).sound.owned
  have hflow : ∀ b ∈ strayChain.blocksIn strayChain.body, ∀ x ∈ strayChain.opsIn b,
      ∀ d ∈ strayChain.op? x,
        (d.kind.isTerminator = true → (strayChain.opsIn b).getLast? = some x) ∧
        ∀ c ∈ d.kind.successors, c ∈ strayChain.blocksIn strayChain.body := by decide +kernel
  have hflow' : strayChain.FlowsWithin :=
    ⟨fun hb hx hd => (hflow _ hb _ hx _ hd).1, fun hb hx hd => (hflow _ hb _ hx _ hd).2 _⟩
  have hflat : ∀ b ∈ strayChain.blocksIn strayChain.body, ∀ x ∈ strayChain.opsIn b,
      ∀ d ∈ strayChain.op? x, d.regions = [] := by decide +kernel
  have hstubs : strayChain.BareStubs := fun b hb x hx d hd =>
    Func.bare_of_nil (hflat b hb.mem x hx d hd)
  have hcheck : strayChain.checkLowered = .ok () := by decide +kernel
  refine ⟨howned, hflow', hstubs, hcheck, ?_⟩
  obtain ⟨gone, f', hrun, -, -, hblocks, -, -, hchecked, hagain, hruns⟩ :=
    prune_exact howned (Option.isSome_iff_exists.mp (by decide +kernel)) hflow' hstubs
  obtain ⟨t, ht⟩ : ∃ t, Machine.run { name := "m", funcs := [strayChain] } 4 "f" [] {} =
      .ok (.returned (some (.int 7))) t := Machine.eq_of_returnsInt (by decide +kernel)
  have hthree : resultOf prune strayChain = some 3 := by decide +kernel
  have hleft : (left prune strayChain).blocksIn (left prune strayChain).body = [⟨0⟩, ⟨1⟩, ⟨5⟩] := by
    decide +kernel
  obtain ⟨hlength, hf'⟩ := EStateM.Result.ok.inj (hrun.symm.trans (ok_of_resultOf hthree))
  rw [hlength] at hrun
  rw [← hf'] at hleft
  have hsame := hruns { name := "m", funcs := [strayChain] } [] [] rfl 4 "f" [] {}
  rw [List.nil_append] at hsame
  exact ⟨f', hrun, hleft, hchecked hcheck, hagain, t, hsame.trans ht⟩

/-- An `unreachable` with a block nested in it, alone in a block that nothing leads to. -/
def stubWithBlock : Func :=
  left (Edit.replaceKind ⟨2⟩ (.transfer .unreachable)) (Source.built "f" ⟨[], .i32⟩
    [.newBlock (some "spare"), .constant (.bool true) .bool (some "flag"),
      .op (.transfer .ret) [] [] [], .cursor (.named "spare"),
      .ifThen (.named "flag") [.constant (.int 7) .i32 none]])

/-- What is nested in a branch or an `unreachable` is pruned with it, though it is no block of the
body. -/
theorem prune_takes_blocks_along :
    stubWithBlock.Owned ∧ stubWithBlock.FlowsWithin ∧
    ⟨2⟩ ∉ stubWithBlock.blocksIn stubWithBlock.body ∧
    (stubWithBlock.block? ⟨2⟩).map (fun d => (d.live, d.ops)) = some (true, [⟨3⟩, ⟨4⟩]) ∧
    ∃ f', prune stubWithBlock = .ok 1 f' ∧
      (f'.block? ⟨2⟩).map (fun d => (d.live, d.ops)) = some (false, []) := by
  have howned : stubWithBlock.Owned :=
    (Func.Reachable.edited (.replaceKind ⟨2⟩ (.transfer .unreachable))
      (.built "f" ⟨[], .i32⟩ _ (leaves_left (by decide +kernel))) trivial
      (leaves_left (by decide +kernel))).sound.owned
  have hflow : ∀ b ∈ stubWithBlock.blocksIn stubWithBlock.body, ∀ x ∈ stubWithBlock.opsIn b,
      ∀ d ∈ stubWithBlock.op? x,
        (d.kind.isTerminator = true → (stubWithBlock.opsIn b).getLast? = some x) ∧
        ∀ c ∈ d.kind.successors, c ∈ stubWithBlock.blocksIn stubWithBlock.body := by decide +kernel
  have hone : resultOf prune stubWithBlock = some 1 := by decide +kernel
  have hdies : ((left prune stubWithBlock).block? ⟨2⟩).map (fun d => (d.live, d.ops)) =
      some (false, []) := by decide +kernel
  exact ⟨howned,
    ⟨fun hb hx hd => (hflow _ hb _ hx _ hd).1, fun hb hx hd => (hflow _ hb _ hx _ hd).2 _⟩,
    by decide +kernel, by decide +kernel, _, ok_of_resultOf hone, hdies⟩

end Tidy

end Unnest
