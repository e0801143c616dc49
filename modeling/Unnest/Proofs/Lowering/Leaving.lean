import Unnest.Lower.Calls
import Unnest.Lower.Capturing
import Unnest.Lower.Resuming
import Unnest.Proofs.Lowering.Opening
/-!
# Lowering in place

The constructs without regions are replaced where they stand: by ops that come in their place, and,
where control does not go on behind them, with what follows moved to a block of its own. `placed`
is the tree that results. Returns and jumps first end the catches they leave, and one that goes
through a finally stores its code in the completion slot.
-/

namespace Unnest

/-- The body with `mid` in the place of a construct; what follows it has moved to the block `cut`,
if there is one. -/
def placed (L R : List BlockTree) (b : BlockId) (args : List ValueId) (pre mid post : List OpTree) :
    Option BlockId → List BlockTree
  | none => L ++ ⟨b, args, pre ++ mid ++ post⟩ :: R
  | some cut => L ++ ⟨b, args, pre ++ mid⟩ :: ⟨cut, [], post⟩ :: R

/-- The ops that end as many catches as said. -/
def EndsCatches (span : Option Span) (n : Nat) (ends : List OpTree) : Prop :=
  ends.length = n ∧ ∀ y ∈ ends, ∃ id, y = .leaf ⟨id, .instr .endCatch, [], [], span⟩

/-- The ops that store a code in a slot. The value that is new has a number from `n` on. -/
inductive Stores (n : Nat) (f : Func) (span : Option Span) (code : Int64) (slot : ValueId) :
    List OpTree → Prop
  | ops {i j : OpId} {v : ValueId} {o : Origin} (hn : n ≤ v.index)
      (hv : f.value? v = some ⟨.i32, o⟩) :
      Stores n f span code slot [.leaf ⟨i, .instr (.constant (.int code)), [], [v], span⟩,
        .leaf ⟨j, .instr .store, [v, slot], [], span⟩]

/-- How a destination is reached: by the given ops and then a branch to the given block. -/
inductive Leads (n : Nat) (f : Func) (B : Bindings) (span : Option Span) :
    Destination → List OpTree → BlockId → Prop
  | block (target : BlockId) : Leads n f B span (.block target) [] target
  | ret {target : BlockId} (h : B.returnTo = some target) : Leads n f B span .ret [] target
  | final {t : OpId} {code : Int64} {route : Route} {codes : List OpTree}
      (h : B.routes.get? t = some route) (hs : Stores n f span code route.slot codes) :
      Leads n f B span (.final t code) codes route.entry

/-- A destination that can be reached. -/
def Bindings.Reaches (B : Bindings) : Destination → Prop
  | .block _ => True
  | .ret => B.returnTo ≠ none
  | .final t _ => B.routes.get? t ≠ none

variable {n : Nat} {f : Func} {span : Option Span} {ops : List OpTree}

theorem Stores.mono {m : Nat} {f' : Func} {code : Int64} {slot : ValueId}
    (h : Stores n f span code slot ops) (g : f.GrowsTo f') (hm : m ≤ n) :
    Stores m f' span code slot ops := by
  cases h with
  | ops hn hv => exact .ops (hm.trans hn) (g.value?_of_some hv)

theorem Leads.mono {f' : Func} {B : Bindings} {d : Destination} {target : BlockId}
    (h : Leads n f B span d ops target) (g : f.GrowsTo f') : Leads n f' B span d ops target := by
  cases h with
  | block => exact .block target
  | ret h => exact .ret h
  | final h hs => exact .final h (hs.mono g (le_refl n))

theorem Leads.weaken {m : Nat} {B : Bindings} {d : Destination} {target : BlockId}
    (h : Leads n f B span d ops target) (hm : m ≤ n) : Leads m f B span d ops target := by
  cases h with
  | block => exact .block target
  | ret h => exact .ret h
  | final h hs => exact .final h (hs.mono (.refl f) hm)

section

variable {stop : Prop} {f : Func} {s : LowerState} {L R : List BlockTree} {b : BlockId}
  {args : List ValueId} {pre post : List OpTree} {x : OpTree} {h : Head} {e : Entries}

theorem LowerState.Edited.refl (s : LowerState) : s.Edited s := ⟨rfl, rfl, .refl _⟩

theorem LowerState.Edited.trans {s' s'' : LowerState} (h : s.Edited s') (h' : s'.Edited s'') :
    s.Edited s'' :=
  ⟨h'.bindings.trans h.bindings, h'.stats.trans h.stats, h.grows.trans h'.grows⟩

theorem Func.Holds.as_tree {T T' : List BlockTree} (hf : f.Holds T e) (h : T = T') : f.Holds T' e :=
  h ▸ hf

/-- What follows an op is moved to a new block, if anything follows it. -/
theorem Func.Holds.cutRest (hf : s.func.Holds (L ++ ⟨b, args, pre ++ x :: post⟩ :: R) e) :
    Meets stop (Lower.cutRest x.id) s fun _ s' => ∃ cut, (cut = none ↔ post = []) ∧
      s'.func.Holds (placed L R b args pre [x] post cut) e ∧ s.Edited s' := by
  refine .step hf.blockOf (.editStep hf.arena.at_block.getBlock ?_)
  have hops : (BlockOf.toBlock ⟨b, args, pre ++ x :: post⟩ (some s.func.body)).ops =
      pre.map (·.id) ++ x.id :: post.map (·.id) := by simp [BlockOf.toBlock]
  by_cases hp : post = []
  · subst hp
    simp only [hops, List.map_nil, List.getLast?_append, List.getLast?_singleton, Option.some_or,
      ne_eq, not_true_eq_false, if_false]
    exact .pure ⟨none, by simp, by simpa [placed] using hf, .refl s⟩
  · have hlast : (pre.map (·.id) ++ x.id :: post.map (·.id)).getLast? ≠ some x.id := by
      intro hl
      have hm : x.id ∈ post.map (·.id) := by
        rw [List.getLast?_append, List.getLast?_cons, Option.some_or, Option.some.injEq] at hl
        cases hg : (post.map (·.id)).getLast? with
        | none => simp [hp] at hg
        | some y =>
          rw [hg, Option.getD_some] at hl
          exact hl ▸ List.mem_of_getLast? hg
      exact hf.arena.op_notMem_others (List.mem_append_right _ hm)
    simp only [hops, ne_eq, hlast, not_false_eq_true, if_true]
    refine .editBind hf.splitAfter ?_
    rintro cut f' ⟨hf', g⟩
    refine .pure ⟨some cut, by simp [hp], hf', ?_⟩
    exact ⟨rfl, rfl, g.growsTo⟩

variable {r : Option RegionId}

theorem Arena.endCatches (n : Nat)
    (ha : Arena f (layout r (L ++ ⟨b, args, pre ++ x :: post⟩ :: R) + e)) :
    Meets stop (Lower.endCatches x.id n) f fun _ f' => ∃ ends, EndsCatches x.head.span n ends ∧
      Arena f' (layout r (L ++ ⟨b, args, pre ++ ends ++ x :: post⟩ :: R) + e) ∧ f.GrowsTo f' := by
  induction n generalizing f pre with
  | zero => exact .pure ⟨[], ⟨rfl, by simp⟩, by simpa using ha, .refl f⟩
  | succ n ih =>
    refine .bind ha.emitBefore ?_
    rintro id f₁ ⟨h₁, g₁⟩
    simp only [List.length_nil, Func.freshValues_zero] at h₁
    have h₁' : Arena f₁ (layout r (L ++ ⟨b, args, (pre ++ [.leaf ⟨id, .instr .endCatch, [], [],
        x.head.span⟩]) ++ x :: post⟩ :: R) + e) := by simpa using h₁
    refine (ih h₁').mono ?_
    rintro _ f₂ ⟨ends, ⟨hlen, hends⟩, h₂, g₂⟩
    refine ⟨.leaf ⟨id, .instr .endCatch, [], [], x.head.span⟩ :: ends, ⟨by simp [hlen], ?_⟩,
        by simpa using h₂, g₁.growsTo.trans g₂⟩
    intro y hy
    rcases List.mem_cons.mp hy with rfl | hy
    · exact ⟨id, rfl⟩
    · exact hends y hy

theorem Arena.numberBefore (value : Int64)
    (ha : Arena f (layout r (L ++ ⟨b, args, pre ++ x :: post⟩ :: R) + e)) :
    Meets stop (Lower.numberBefore x.id value) f fun v f' => ∃ id o, f'.value? v = some ⟨.i32, o⟩ ∧
      f.values.size ≤ v.index ∧ Arena f' (layout r (L ++ ⟨b, args, pre ++
        .leaf ⟨id, .instr (.constant (.int value)), [], [v], x.head.span⟩ :: x :: post⟩ :: R) + e) ∧
          f.GrowsTo f' := by
  refine .bind ha.emitBefore ?_
  rintro id f₁ ⟨h₁, g₁⟩
  simp only [List.length_cons, List.length_nil, zero_add, Func.freshValues_one] at h₁
  exact .of_ok (h₁.at_op.result rfl) ⟨id, _, g₁.value?_new, le_refl _, h₁, g₁.growsTo⟩

/-- What replaces a return or jump. -/
structure Left (s s' : LowerState) (L R : List BlockTree) (b : BlockId) (args : List ValueId)
    (pre post : List OpTree) (h : Head) (dest : Destination) (T' : List BlockTree) : Prop where
  edited : s.Edited s'
  result : ∃ ends codes target cut, EndsCatches h.span (s.bindings.catchDepth h.id) ends ∧
    Leads s.func.values.size s'.func s.bindings h.span dest codes target ∧
      (cut = none ↔ post = []) ∧
        T' = placed L R b args pre (ends ++ codes ++
          [.leaf { h with kind := .transfer (.br target), operands := [] }]) post cut

/-- An op that has been turned into a branch ends its block. -/
theorem Func.Holds.branchAway (target : BlockId)
    (hf : s.func.Holds (L ++ ⟨b, args, pre ++ .leaf h :: post⟩ :: R) 0) :
    Meets stop (do
      Lower.makeBranch h.id target []
      Lower.cutRest h.id : Lower Unit) s fun _ s' => ∃ cut, (cut = none ↔ post = []) ∧
        s'.func.Holds (placed L R b args pre
          [.leaf { h with kind := .transfer (.br target), operands := [] }] post cut) 0 ∧
            s.Edited s' := by
  refine .editBind hf.arena.makeBranch ?_
  rintro _ f₁ ⟨ha, g⟩
  have hf₁ : f₁.Holds (L ++ ⟨b, args, pre ++
      .leaf { h with kind := .transfer (.br target), operands := [] } :: post⟩ :: R) 0 :=
    .of_arena ha g.body (by simp)
  have hcut : Meets stop _ { s with func := f₁ } _ := Func.Holds.cutRest hf₁
  refine hcut.mono ?_
  rintro _ s' ⟨cut, hc, hs', hed⟩
  exact ⟨cut, hc, hs', hed.bindings, hed.stats, g.growsTo.trans hed.grows⟩

theorem Func.Holds.leave {dest : Destination}
    (hf : s.func.Holds (L ++ ⟨b, args, pre ++ .leaf h :: post⟩ :: R) 0)
    (hd : ¬s.bindings.Reaches dest → stop) :
    Meets stop (Lower.leave h.id dest) s fun _ s' => ∃ T', s'.func.Holds T' 0 ∧
      Left s s' L R b args pre post h dest T' := by
  refine .step (t := s) (b := s.bindings) rfl ?_
  have hends : Meets stop _ _ _ := hf.arena.endCatches (s.bindings.catchDepth h.id)
  refine .editBind hends ?_
  rintro _ f₁ ⟨ends, hends, ha₁, g₁⟩
  have hf₁ : f₁.Holds (L ++ ⟨b, args, (pre ++ ends) ++ .leaf h :: post⟩ :: R) 0 :=
    .of_arena ha₁ g₁.body (by simp)
  -- the end of the lowering, once the target is known
  have hrest : ∀ f₂ codes target,
      f₂.Holds (L ++ ⟨b, args, (pre ++ ends ++ codes) ++ .leaf h :: post⟩ :: R) 0 →
      f₁.GrowsTo f₂ → Leads s.func.values.size f₂ s.bindings h.span dest codes target →
      Meets stop (do
        Lower.makeBranch h.id target []
        Lower.cutRest h.id : Lower Unit) { s with func := f₂ } fun _ s' => ∃ T',
          s'.func.Holds T' 0 ∧ Left s s' L R b args pre post h dest T' := by
    intro f₂ codes target hf₂ g₂ hl
    have haway : Meets stop _ { s with func := f₂ } _ := Func.Holds.branchAway target hf₂
    refine haway.mono ?_
    rintro _ s' ⟨cut, hc, hs', hed⟩
    refine ⟨_, hs',
      ⟨hed.bindings, hed.stats, (g₁.trans g₂).trans hed.grows⟩, ends, codes, target, cut, hends,
      hl.mono hed.grows, hc, ?_⟩
    cases cut <;> simp [placed]
  cases dest with
  | block target =>
    exact .step rfl (hrest f₁ [] target (by simpa using hf₁) (.refl f₁) (.block target))
  | ret =>
    cases hret : s.bindings.returnTo with
    | none =>
      have hb : s.bindings.returnBlock h.id = .error (.contractAt h.id .noReturnBlock) := by
        simp [Bindings.returnBlock, hret]
      simp only [hb]
      exact .fail rfl (hd (by simp [Bindings.Reaches, hret]))
    | some target =>
      have hb : s.bindings.returnBlock h.id = .ok target := by simp [Bindings.returnBlock, hret]
      simp only [hb]
      exact .step rfl (hrest f₁ [] target (by simpa using hf₁) (.refl f₁) (.ret hret))
  | final t code =>
    cases hroute : s.bindings.routes.get? t with
    | none =>
      have hb : s.bindings.route t = .error (.internalAt t .noCompletionSlot) := by
        simp [Bindings.route, hroute]
      simp only [hb]
      exact .fail rfl (hd (by simp [Bindings.Reaches, hroute]))
    | some route =>
      have hb : s.bindings.route t = .ok route := by simp [Bindings.route, hroute]
      simp only [hb]
      refine .step rfl ?_
      have hnum : Meets stop _ _ _ := hf₁.arena.numberBefore code
      refine .editBind hnum ?_
      rintro v f₂ ⟨i, o, hv, hn, ha₂, g₂⟩
      have hf₂ : f₂.Holds (L ++ ⟨b, args, (pre ++ ends ++ [.leaf ⟨i,
          .instr (.constant (.int code)), [], [v], h.span⟩]) ++ .leaf h :: post⟩ :: R) 0 :=
        .of_arena (by simpa using ha₂) g₂.body (by simp)
      refine .editBind hf₂.arena.emitBefore ?_
      rintro j f₃ ⟨ha₃, g₃⟩
      simp only [List.length_nil, Func.freshValues_zero] at ha₃
      have hf₃ : f₃.Holds (L ++ ⟨b, args, (pre ++ ends ++ [.leaf ⟨i,
          .instr (.constant (.int code)), [], [v], h.span⟩, .leaf ⟨j, .instr .store,
            [v, route.slot], [], h.span⟩]) ++ .leaf h :: post⟩ :: R) 0 :=
        .of_arena (by simpa using ha₃) g₃.body (by simp)
      exact .step rfl (hrest f₃ _ route.entry hf₃ (g₂.trans g₃.growsTo)
        (.final hroute (.ops (g₁.size_le.trans hn) (g₃.growsTo.value?_of_some hv))))

theorem Left.of_edit {f₁ : Func} {s' : LowerState} {dest : Destination} {T' : List BlockTree}
    (hl : Left { s with func := f₁ } s' L R b args pre post h dest T') (g : s.func.GrowsTo f₁) :
    Left s s' L R b args pre post h dest T' := by
  obtain ⟨⟨hb, hst, hg⟩, ends, codes, target, cut, hends, hleads, hcut, hT⟩ := hl
  exact ⟨⟨hb, hst, g.trans hg⟩, ends, codes, target, cut, hends, hleads.weaken g.size_le, hcut, hT⟩

/-! ## Returns and jumps -/

theorem Func.Holds.lowerReturn
    (hf : s.func.Holds (L ++ ⟨b, args, pre ++ .leaf h :: post⟩ :: R) 0)
    (hd : ¬s.bindings.Reaches ((s.bindings.jump? h.id).getD .ret) → stop) :
    Meets stop (Lower.lowerReturn h.id) s fun _ s' => ∃ T', s'.func.Holds T' 0 ∧
      Left s s' L R b args pre post h ((s.bindings.jump? h.id).getD .ret) T' :=
  .step (t := s) (b := s.bindings) rfl (hf.leave hd)

theorem Func.Holds.lowerJump
    (hf : s.func.Holds (L ++ ⟨b, args, pre ++ .leaf h :: post⟩ :: R) 0)
    (hd : ¬(∃ dest, s.bindings.jump? h.id = some dest ∧ s.bindings.Reaches dest) → stop) :
    Meets stop (Lower.lowerJump h.id) s fun _ s' => ∃ T' dest, s'.func.Holds T' 0 ∧
      s.bindings.jump? h.id = some dest ∧ Left s s' L R b args pre post h dest T' := by
  refine .step (t := s) (b := s.bindings) rfl ?_
  cases hj : s.bindings.jump? h.id with
  | none =>
    have hb : s.bindings.jump h.id = .error (.internalAt h.id .noJumpTarget) := by
      simp [Bindings.jump, hj]
    rw [hb]
    exact .fail rfl (hd (by simp [hj]))
  | some dest =>
    have hb : s.bindings.jump h.id = .ok dest := by simp [Bindings.jump, hj]
    rw [hb]
    refine .step rfl ((hf.leave fun hr => hd (by simpa [hj] using hr)).mono ?_)
    rintro _ s' ⟨T', hf', hl⟩
    exact ⟨T', dest, hf', rfl, hl⟩

/-- The store of a returned value. -/
theorem Func.Holds.storeReturnValue
    (hf : s.func.Holds (L ++ ⟨b, args, pre ++ .leaf h :: post⟩ :: R) 0)
    (ho : (∀ value slot, h.operands ≠ [value, slot]) → stop) :
    Meets stop (Lower.storeReturnValue h.id) s.func fun _ f' => ∃ id value slot,
      h.operands = [value, slot] ∧ f'.Holds (L ++ ⟨b, args, (pre ++
        [.leaf ⟨id, .instr .store, [value, slot], [], h.span⟩]) ++ .leaf h :: post⟩ :: R) 0 ∧
          s.func.GrowsTo f' := by
  refine .step hf.arena.at_op.getOp ?_
  simp only [OpTree.toOp, OpTree.head_leaf]
  split
  · rename_i value slot hvs
    refine .bind hf.arena.emitBefore ?_
    rintro id f' ⟨ha, g⟩
    refine .pure ⟨id, value, slot, hvs, ?_, g.growsTo⟩
    exact .of_arena (by simpa using ha) g.body (by simp)
  · exact .throw (ho ‹_›)

theorem Func.Holds.lowerReturnVal
    (hf : s.func.Holds (L ++ ⟨b, args, pre ++ .leaf h :: post⟩ :: R) 0)
    (ho : (∀ value slot, h.operands ≠ [value, slot]) → stop)
    (hd : ¬s.bindings.Reaches ((s.bindings.jump? h.id).getD .ret) → stop) :
    Meets stop (Lower.lowerReturnVal h.id) s fun _ s' => ∃ T' id value slot, s'.func.Holds T' 0 ∧
      h.operands = [value, slot] ∧ Left s s' L R b args
        (pre ++ [.leaf ⟨id, .instr .store, [value, slot], [], h.span⟩]) post h
          ((s.bindings.jump? h.id).getD .ret) T' := by
  have hstore : Meets stop _ _ _ := hf.storeReturnValue ho
  refine .editBind hstore ?_
  rintro _ f₁ ⟨id, value, slot, hvs, hf₁, g₁⟩
  have hret : Meets stop _ { s with func := f₁ } _ := Func.Holds.lowerReturn hf₁ hd
  refine hret.mono ?_
  rintro _ s' ⟨T', hf', hl⟩
  exact ⟨T', id, value, slot, hf', hvs, hl.of_edit g₁⟩

/-- What replaces a suspension: the store of its value and a branch to the block that returns. -/
structure LoweredYieldVal (s s' : LowerState) (L R : List BlockTree) (b : BlockId)
    (args : List ValueId) (pre post : List OpTree) (h : Head) (T' : List BlockTree) : Prop where
  edited : s.Edited s'
  result : ∃ id value slot target cut, h.operands = [value, slot] ∧
    s.bindings.returnTo = some target ∧ (cut = none ↔ post = []) ∧
      T' = placed L R b args pre [.leaf ⟨id, .instr .store, [value, slot], [], h.span⟩,
        .leaf { h with kind := .transfer (.br target), operands := [] }] post cut

theorem Func.Holds.lowerYieldVal
    (hf : s.func.Holds (L ++ ⟨b, args, pre ++ .leaf h :: post⟩ :: R) 0)
    (ho : (∀ value slot, h.operands ≠ [value, slot]) → stop)
    (hd : s.bindings.returnTo = none → stop) :
    Meets stop (Lower.lowerYieldVal h.id) s fun _ s' => ∃ T', s'.func.Holds T' 0 ∧
      LoweredYieldVal s s' L R b args pre post h T' := by
  have hstore : Meets stop _ _ _ := hf.storeReturnValue ho
  refine .editBind hstore ?_
  rintro _ f₁ ⟨id, value, slot, hvs, hf₁, g₁⟩
  refine .step (t := { s with func := f₁ }) (b := s.bindings) rfl ?_
  cases hret : s.bindings.returnTo with
  | none =>
    have hb : s.bindings.returnBlock h.id = .error (.contractAt h.id .noReturnBlock) := by
      simp [Bindings.returnBlock, hret]
    rw [hb]
    exact .fail rfl (hd hret)
  | some target =>
    have hb : s.bindings.returnBlock h.id = .ok target := by simp [Bindings.returnBlock, hret]
    rw [hb]
    have haway : Meets stop _ { s with func := f₁ } _ := Func.Holds.branchAway target hf₁
    refine .step rfl (haway.mono ?_)
    rintro _ s' ⟨cut, hc, hs', hed⟩
    refine ⟨_, hs',
      ⟨hed.bindings, hed.stats, g₁.trans hed.grows⟩, id, value, slot, target, cut, hvs,
      hret, hc, ?_⟩
    cases cut <;> simp [placed]

/-! ## The start and the end of the function -/

/-- What becomes of the start of the function: its return slot, if it returns a value, and the
block that returns. -/
inductive EntryCode (h : Head) (blk : BlockId) : List OpTree → BlockTree → Prop
  | void {i : OpId} (hr : h.results = []) :
    EntryCode h blk [] ⟨blk, [], [.leaf ⟨i, .transfer .ret, [], [], none⟩]⟩
  | value {i j : OpId} {slot v : ValueId} {rest : List ValueId} (hr : h.results = slot :: rest) :
    EntryCode h blk [.leaf { h with kind := .instr (.alloc false) }]
      ⟨blk, [], [.leaf ⟨i, .instr .load, [slot], [v], none⟩,
        .leaf ⟨j, .transfer .ret, [v], [], none⟩]⟩

/-- What lowering the function's entry leaves. -/
structure LoweredEntry (s s' : LowerState) (L R : List BlockTree) (b : BlockId)
    (args : List ValueId) (pre post : List OpTree) (h : Head) (T' : List BlockTree) : Prop where
  stats : s'.stats = s.stats
  grows : s.func.GrowsTo s'.func
  result : ∃ blk mid B, EntryCode h blk mid B ∧ s'.bindings = s.bindings.setReturnBlock blk ∧
    T' = placed L R b args pre mid post none ++ [B]

theorem Func.Holds.lowerEntry
    (hf : s.func.Holds (L ++ ⟨b, args, pre ++ .leaf h :: post⟩ :: R) 0) :
    Meets stop (Lower.lowerEntry h.id) s fun _ s' => ∃ T', s'.func.Holds T' 0 ∧
      LoweredEntry s s' L R b args pre post h T' := by
  refine .editStep hf.arena.at_op.result? ?_
  simp only [OpTree.toOp, OpTree.head_leaf]
  cases hr : h.results with
  | nil =>
    simp only [List.head?_nil]
    refine .editBind (hf.arena.eraseNode (by simp)) ?_
    rintro _ f₁ ⟨ha₁, g₁⟩
    have hf₁ : f₁.Holds (L ++ ⟨b, args, pre ++ post⟩ :: R) 0 := .of_arena ha₁ g₁.body (by simp)
    refine .editBind (hf₁.newBlock) ?_
    rintro blk f₂ ⟨hf₂, g₂⟩
    refine .step (t := { s with func := f₂ }) (b := f₂) rfl ?_
    refine .editBind hf₂.appendBlock ?_
    rintro _ f₃ ⟨hf₃, g₃⟩
    refine .editBind hf₃.arena.emitAtEnd ?_
    rintro i f₄ ⟨ha₄, g₄⟩
    refine .update ⟨_, .of_arena ha₄ g₄.body ?_, rfl,
      g₁.growsTo.trans (g₂.growsTo.trans (g₃.growsTo.trans g₄.growsTo)), blk, _, _,
        .void (i := i) hr, rfl, ?_⟩
    · simp
    · simp [placed]
  | cons slot rest =>
    simp only [List.head?_cons]
    refine .editBind (hf.arena.modifyHead { h with kind := .instr (.alloc false) } rfl rfl rfl) ?_
    rintro _ f₁ ⟨ha₁, g₁⟩
    have hf₁ : f₁.Holds (L ++ ⟨b, args, pre ++ .leaf { h with kind := .instr (.alloc false) } ::
      post⟩ :: R) 0 := .of_arena ha₁ g₁.body (by simp)
    refine .editBind (hf₁.newBlock) ?_
    rintro blk f₂ ⟨hf₂, g₂⟩
    refine .step (t := { s with func := f₂ }) (b := f₂) rfl ?_
    refine .editBind hf₂.appendBlock ?_
    rintro _ f₃ ⟨hf₃, g₃⟩
    refine .editBind hf₃.arena.emitAtEnd ?_
    rintro i f₄ ⟨ha₄, g₄⟩
    have hf₄ : f₄.Holds _ 0 := .of_arena ha₄ g₄.body (by simp)
    simp only [List.length_cons, List.length_nil, zero_add, Func.freshValues_one,
      List.nil_append] at hf₄
    have hload : Edit.result i f₄ = .ok ⟨f₃.values.size⟩ f₄ := by
      have hop := hf₄.arena
      rw [← List.nil_append [OpTree.leaf _]] at hop
      exact Arena.result hop.at_op rfl
    refine .editStep hload (.editBind hf₄.arena.emitAtEnd ?_)
    rintro j f₅ ⟨ha₅, g₅⟩
    refine .update ⟨_,
      .of_arena ha₅ g₅.body ?_, rfl, g₁.growsTo.trans (g₂.growsTo.trans (g₃.growsTo.trans
        (g₄.growsTo.trans g₅.growsTo))), blk, _, _,
        .value (i := i) (j := j) (v := ⟨f₃.values.size⟩) hr, rfl, ?_⟩
    · simp
    · simp [placed]

theorem Func.Holds.lowerExit
    (hf : s.func.Holds (L ++ ⟨b, args, pre ++ .leaf h :: post⟩ :: R) 0)
    (hd : s.bindings.returnTo = none → stop) :
    Meets stop (Lower.lowerExit h.id) s fun _ s' => ∃ target, s.bindings.returnTo = some target ∧
      s'.func.Holds (placed L R b args pre
        [.leaf { h with kind := .transfer (.br target), operands := [] }] post none) 0 ∧
          s.Edited s' := by
  refine .step (t := s) (b := s.bindings) rfl ?_
  cases hret : s.bindings.returnTo with
  | none =>
    have hb : s.bindings.returnBlock h.id = .error (.contractAt h.id .noReturnBlock) := by
      simp [Bindings.returnBlock, hret]
    rw [hb]
    exact .fail rfl (hd hret)
  | some target =>
    have hb : s.bindings.returnBlock h.id = .ok target := by simp [Bindings.returnBlock, hret]
    rw [hb]
    refine .step rfl (.edit hf.arena.makeBranch ?_)
    rintro _ f' ⟨ha, g⟩
    refine ⟨target, rfl, ?_, rfl, rfl, g.growsTo⟩
    have hf' : f'.Holds _ 0 := .of_arena ha g.body (by simp)
    simpa [placed, OpTree.leaf] using hf'

/-! ## Calls and throws -/

/-- What becomes of a call, given the pad it unwinds to: an instruction, or a transfer that ends
its block. -/
structure LoweredCall (s s' : LowerState) (callee : Callee) (plain : Instr) (L R : List BlockTree)
    (b : BlockId) (args : List ValueId) (pre post : List OpTree) (h : Head) (T' : List BlockTree) :
    Prop where
  bindings : s'.bindings = s.bindings
  grows : s.func.GrowsTo s'.func
  stats : s'.stats = { s.stats with
    invokes := s.stats.invokes + (s.bindings.unwind? h.id).isSome.toNat }
  result :
    match s.bindings.unwind? h.id with
    | none => T' = placed L R b args pre [.leaf { h with kind := .instr plain }] post none
    | some unwind => ∃ normal, T' = placed L R b args pre
        [.leaf { h with kind := .transfer (.invoke callee normal unwind) }] post (some normal)

theorem Func.Holds.lowerCall {callee : Callee} {plain : Instr}
    (hf : s.func.Holds (L ++ ⟨b, args, pre ++ .leaf h :: post⟩ :: R) 0) :
    Meets stop (Lower.lowerCall h.id callee plain) s fun _ s' => ∃ T', s'.func.Holds T' 0 ∧
      LoweredCall s s' callee plain L R b args pre post h T' := by
  refine .step (t := s) (b := s.bindings) rfl ?_
  cases hu : s.bindings.unwind? h.id with
  | none =>
    refine .edit (hf.arena.modifyHead { h with kind := .instr plain } rfl rfl rfl) ?_
    rintro _ f' ⟨ha, g⟩
    refine ⟨_, .of_arena ha g.body (by simp), rfl, g.growsTo, by simp [hu], ?_⟩
    simp [hu, placed, OpTree.leaf]
  | some unwind =>
    refine .editBind hf.splitAfter ?_
    rintro normal f₁ ⟨hf₁, g₁⟩
    refine .editBind (hf₁.arena.modifyHead { h with
      kind := .transfer (.invoke callee normal unwind) } rfl rfl rfl) ?_
    rintro _ f₂ ⟨ha₂, g₂⟩
    refine .update ⟨_, .of_arena ha₂ g₂.body (by simp), rfl, g₁.growsTo.trans g₂.growsTo,
      by simp [hu], ?_⟩
    simp [hu, placed, OpTree.leaf]

/-- Where a throw goes. -/
def throwTransfer : Option BlockId → Transfer
  | some unwind => .throwTo unwind
  | none => .throwOut

theorem Func.Holds.lowerThrow
    (hf : s.func.Holds (L ++ ⟨b, args, pre ++ .leaf h :: post⟩ :: R) 0) :
    Meets stop (Lower.lowerThrow h.id) s fun _ s' => ∃ cut, (cut = none ↔ post = []) ∧
      s'.func.Holds (placed L R b args pre [.leaf { h with
        kind := .transfer (throwTransfer (s.bindings.unwind? h.id)) }] post cut) 0 ∧
          s.Edited s' := by
  have hrest : ∀ k : OpKind, Meets stop (do
      Edit.replaceKind h.id k
      Lower.cutRest h.id : Lower Unit) s fun _ s' => ∃ cut, (cut = none ↔ post = []) ∧
        s'.func.Holds (placed L R b args pre [.leaf { h with kind := k }] post cut) 0 ∧
          s.Edited s' := by
    intro k
    refine .editBind (hf.arena.modifyHead { h with kind := k } rfl rfl rfl) ?_
    rintro _ f₁ ⟨ha₁, g₁⟩
    have hf₁ : f₁.Holds (L ++ ⟨b, args, pre ++ .leaf { h with kind := k } :: post⟩ :: R) 0 :=
      .of_arena ha₁ g₁.body (by simp)
    have hcut : Meets stop _ { s with func := f₁ } _ := Func.Holds.cutRest hf₁
    refine hcut.mono ?_
    rintro _ s' ⟨cut, hc, hs', hed⟩
    exact ⟨cut, hc, hs', hed.bindings, hed.stats, g₁.growsTo.trans hed.grows⟩
  refine .step (t := s) (b := s.bindings) rfl ?_
  cases s.bindings.unwind? h.id with
  | none => exact hrest _
  | some unwind => exact hrest _

/-! ## Resume points and catch clauses -/

/-- What becomes of a resume point. -/
structure LoweredStateLabel (s s' : LowerState) (L R : List BlockTree) (b : BlockId)
    (args : List ValueId) (pre post : List OpTree) (h : Head) (T' : List BlockTree) : Prop where
  grows : s.func.GrowsTo s'.func
  stats : s'.stats = { s.stats with stateLabels := s.stats.stateLabels + 1 }
  result : ∃ resume, s'.bindings = s.bindings.addStateLabel resume ∧
    T' = placed L R b args pre [.leaf { h with kind := .transfer (.br resume), operands := [] }]
      post (some resume)

theorem Func.Holds.lowerStateLabel
    (hf : s.func.Holds (L ++ ⟨b, args, pre ++ .leaf h :: post⟩ :: R) 0) :
    Meets stop (Lower.lowerStateLabel h.id) s fun _ s' => ∃ T', s'.func.Holds T' 0 ∧
      LoweredStateLabel s s' L R b args pre post h T' := by
  refine .editBind hf.splitAfter ?_
  rintro resume f₁ ⟨hf₁, g₁⟩
  refine .editBind hf₁.arena.makeBranch ?_
  rintro _ f₂ ⟨ha₂, g₂⟩
  exact .step rfl (.update ⟨_, .of_arena ha₂ g₂.body (by simp), g₁.growsTo.trans g₂.growsTo, rfl,
    resume, rfl, rfl⟩)

theorem Func.Holds.lowerCatch
    (hf : s.func.Holds (L ++ ⟨b, args, pre ++ .leaf h :: post⟩ :: R) 0)
    (hp : s.bindings.payloads.get? h.id = none → stop) (ho : h.operands = [] → stop) :
    Meets stop (Lower.lowerCatch h.id) s fun _ s' => ∃ payload var rest,
      s.bindings.payloads.get? h.id = some payload ∧ h.operands = var :: rest ∧
        s'.func.Holds (placed L R b args pre [.leaf { h with
          kind := .instr .saveCatch, operands := [payload, var] }] post none) 0 ∧ s.Edited s' := by
  refine .step (t := s) (b := s.bindings) rfl ?_
  cases hpay : s.bindings.payloads.get? h.id with
  | none =>
    have hb : s.bindings.payload h.id = .error (.internalAt h.id .noCatchPayload) := by
      simp [Bindings.payload, hpay]
    rw [hb]
    exact .fail rfl (hp hpay)
  | some payload =>
    have hb : s.bindings.payload h.id = .ok payload := by simp [Bindings.payload, hpay]
    rw [hb]
    refine .step rfl (.editStep hf.arena.at_op.getOp ?_)
    simp only [OpTree.toOp, OpTree.head_leaf]
    split
    · exact .throw (ho ‹_›)
    · rename_i var rest hvar
      refine .editBind (hf.arena.modifyHead { h with kind := .instr .saveCatch } rfl rfl rfl) ?_
      rintro _ f₁ ⟨ha₁, g₁⟩
      refine .edit (ha₁.modifyHead { h with kind := .instr .saveCatch, operands := [payload, var] }
        rfl rfl rfl) ?_
      rintro _ f₂ ⟨ha₂, g₂⟩
      refine ⟨payload, var, rest, rfl, hvar, ?_, rfl, rfl,
          g₁.growsTo.trans g₂.growsTo⟩
      have hf₂ : f₂.Holds _ 0 := .of_arena ha₂ (g₂.body.trans g₁.body) (by simp)
      simpa [placed, OpTree.leaf] using hf₂

/-! ## Captures -/

/-- The ops that store captured values in their fields. -/
def OpTree.IsFieldOp (y : OpTree) : Prop :=
  ∃ id i operands results span, y = .leaf ⟨id, .instr i, operands, results, span⟩ ∧
    (i = .load ∨ i = .store ∨ ∃ index, i = .fieldRef index)

theorem Arena.as_ops {ops c : List OpTree} (ha : Arena f (layout r (L ++ ⟨b, args, ops⟩ :: R) + e))
    (h : ops = c) : Arena f (layout r (L ++ ⟨b, args, c⟩ :: R) + e) := h ▸ ha

theorem Arena.storeFields (env : ValueId) (index : Nat) {fields : List (ValueId × Ty)}
    (hv : (∃ p ∈ fields, f.value? p.1 = none) → stop)
    (ha : Arena f (layout r (L ++ ⟨b, args, pre ++ x :: post⟩ :: R) + e)) :
    Meets stop (Lower.storeFields env index x.id fields) f fun _ f' => ∃ stores,
      (∀ y ∈ stores, y.IsFieldOp) ∧
        Arena f' (layout r (L ++ ⟨b, args, pre ++ x :: stores ++ post⟩ :: R) + e) ∧
          f.GrowsTo f' := by
  induction fields generalizing f x pre index with
  | nil => exact .pure ⟨[], by simp, by simpa using ha, .refl f⟩
  | cons p fields ih =>
    obtain ⟨value, field⟩ := p
    unfold Lower.storeFields
    cases hval : f.value? value with
    | none => exact .fail (valueTy_eq_error hval) (hv ⟨(value, field), by simp, hval⟩)
    | some d =>
      refine .step (valueTy_eq hval) ?_
      -- the reference to the field and the store, behind the last op emitted
      have hrest : ∀ (f₁ : Func) (pre₁ : List OpTree) (y : OpTree) (stored : ValueId),
          f.GrowsTo f₁ → Arena f₁ (layout r (L ++ ⟨b, args, pre₁ ++ y :: post⟩ :: R) + e) →
          Meets stop (do
            let ref ← Edit.emitAfter y.id (.instr (.fieldRef index)) [env] [.ref field]
            let store ← Edit.emitAfter ref (.instr .store) [stored, ← Edit.result ref] []
            Lower.storeFields env (index + 1) store fields) f₁ fun _ f' => ∃ stores,
              (∀ z ∈ stores, z.IsFieldOp) ∧
                Arena f' (layout r (L ++ ⟨b, args, pre₁ ++ y :: stores ++ post⟩ :: R) + e) ∧
                  f₁.GrowsTo f' := by
        intro f₁ pre₁ y stored g₁ ha₁
        refine .bind ha₁.emitAfter ?_
        rintro ref f₂ ⟨ha₂, g₂⟩
        simp only [List.length_cons, List.length_nil, zero_add, Func.freshValues_one] at ha₂
        have ha₂' := ha₂.as_ops (c := (pre₁ ++ [y]) ++ .leaf ⟨ref, .instr (.fieldRef index), [env],
          [⟨f₁.values.size⟩], y.head.span⟩ :: post) (by simp)
        refine .step (ha₂'.at_op.result rfl) (.bind ha₂'.emitAfter ?_)
        rintro store f₃ ⟨ha₃, g₃⟩
        simp only [List.length_nil, Func.freshValues_zero] at ha₃
        have ha₃' := ha₃.as_ops (c := (pre₁ ++ [y, .leaf ⟨ref, .instr (.fieldRef index), [env],
          [⟨f₁.values.size⟩], y.head.span⟩]) ++ .leaf ⟨store, .instr .store,
            [stored, ⟨f₁.values.size⟩], [], y.head.span⟩ :: post) (by simp)
        have g : f.GrowsTo f₃ := g₁.trans (g₂.growsTo.trans g₃.growsTo)
        have hv₃ : (∃ p ∈ fields, f₃.value? p.1 = none) → stop := by
          rintro ⟨p, hp, hpv⟩
          exact hv ⟨p, by simp [hp], g.value?_eq_none hpv⟩
        refine (ih (index + 1) hv₃ ha₃').mono ?_
        rintro _ f₄ ⟨stores, hst, ha₄, g₄⟩
        refine ⟨.leaf ⟨ref, .instr (.fieldRef index), [env],
            [⟨f₁.values.size⟩], y.head.span⟩ :: .leaf ⟨store, .instr .store,
              [stored, ⟨f₁.values.size⟩], [], y.head.span⟩ :: stores, ?_, ha₄.as_ops ?_,
            (g₂.growsTo.trans g₃.growsTo).trans g₄⟩
        · intro z hz
          rcases List.mem_cons.mp hz with rfl | hz
          · exact ⟨_, _, _, _, _, rfl, .inr (.inr ⟨index, rfl⟩)⟩
          rcases List.mem_cons.mp hz with rfl | hz
          · exact ⟨_, _, _, _, _, rfl, .inr (.inl rfl)⟩
          · exact hst z hz
        · simp
      split
      · refine .bind ha.emitAfter ?_
        rintro load f₁ ⟨ha₁, g₁⟩
        simp only [List.length_cons, List.length_nil, zero_add, Func.freshValues_one] at ha₁
        have ha₁' := ha₁.as_ops (c := (pre ++ [x]) ++ .leaf ⟨load, .instr .load, [value],
          [⟨f.values.size⟩], x.head.span⟩ :: post) (by simp)
        refine .step (ha₁'.at_op.result rfl) (.step rfl ?_)
        refine (hrest f₁ _ _ _ g₁.growsTo ha₁').mono ?_
        rintro _ f₂ ⟨stores, hst, ha₂, g₂⟩
        refine ⟨.leaf ⟨load, .instr .load, [value], [⟨f.values.size⟩], x.head.span⟩ :: stores, ?_,
            ha₂.as_ops ?_, g₁.growsTo.trans g₂⟩
        · intro z hz
          rcases List.mem_cons.mp hz with rfl | hz
          · exact ⟨_, _, _, _, _, rfl, .inl rfl⟩
          · exact hst z hz
        · simp
      · exact .step rfl (hrest f _ _ _ (.refl f) ha)

/-- What becomes of a capture: a variable, and the stores of its fields. -/
structure LoweredCapture (s s' : LowerState) (L R : List BlockTree) (b : BlockId)
    (args : List ValueId) (pre post : List OpTree) (h : Head) (T' : List BlockTree) : Prop where
  edited : s.Edited s'
  result : ∃ inHeap stores, (∀ y ∈ stores, y.IsFieldOp) ∧
    T' = placed L R b args pre
      (.leaf { h with kind := .instr (.alloc inHeap), operands := [] } :: stores) post none

/-- What a capture needs to be lowered. -/
def CaptureReady (f : Func) (h : Head) : Prop :=
  ∃ env rest fields o, h.results = env :: rest ∧ f.value? env = some ⟨.ref (.tuple fields), o⟩ ∧
    h.operands.length = fields.length ∧ ∀ v ∈ h.operands, f.value? v ≠ none

theorem Func.Holds.lowerCapture {storage : CaptureStorage}
    (hf : s.func.Holds (L ++ ⟨b, args, pre ++ .leaf h :: post⟩ :: R) 0)
    (hr : ¬CaptureReady s.func h → stop) :
    Meets stop (Lower.lowerCapture storage h.id) s fun _ s' => ∃ T', s'.func.Holds T' 0 ∧
      LoweredCapture s s' L R b args pre post h T' := by
  refine .editStep hf.arena.at_op.getOp ?_
  simp only [OpTree.toOp, OpTree.head_leaf]
  split
  · rename_i hres
    refine .throw (hr ?_)
    rintro ⟨env, rest, fields, o, hres', -⟩
    simp [hres] at hres'
  · rename_i env rest hres
    obtain ⟨⟨ty, o⟩, hty⟩ := Option.ne_none_iff_exists'.mp
      (hf.arena.at_op.results_exist env (by simp [hres]))
    have hready : CaptureReady s.func h → ∃ fields, ty = .ref (.tuple fields) ∧
        h.operands.length = fields.length ∧ ∀ v ∈ h.operands, s.func.value? v ≠ none := by
      rintro ⟨env', rest', fields, o', hres', hty', hlen, hv⟩
      rw [hres] at hres'
      cases hres'
      rw [hty] at hty'
      cases hty'
      exact ⟨fields, rfl, hlen, hv⟩
    refine .editStep (valueTy_eq hty) ?_
    split
    · rename_i fields hp
      by_cases hlen : h.operands.length = fields.length
      swap
      · simp only [ne_eq, hlen, not_false_eq_true, if_true]
        refine .fail rfl (hr fun h => ?_)
        obtain ⟨fields', rfl, hlen', -⟩ := hready h
        cases hp
        exact hlen hlen'
      · simp only [ne_eq, hlen, not_true_eq_false, if_false]
        refine .editBind (hf.arena.modifyHead { h with
          kind := .instr (.alloc (storage == .heap)) } rfl rfl rfl) ?_
        rintro _ f₁ ⟨ha₁, g₁⟩
        refine .editBind (ha₁.modifyHead { h with
          kind := .instr (.alloc (storage == .heap)), operands := [] } rfl rfl rfl) ?_
        rintro _ f₂ ⟨ha₂, g₂⟩
        have g : s.func.GrowsTo f₂ := g₁.growsTo.trans g₂.growsTo
        have hvals : (∃ p ∈ h.operands.zip fields, f₂.value? p.1 = none) → stop := by
          rintro ⟨p, hp, hpv⟩
          refine hr fun h => ?_
          obtain ⟨_, -, -, hv⟩ := hready h
          exact hv p.1 (List.of_mem_zip hp).1 (g.value?_eq_none hpv)
        have hstores : Meets stop _ _ _ := ha₂.storeFields env 0 hvals
        refine .edit hstores ?_
        rintro _ f₃ ⟨stores, hst, ha₃, g₃⟩
        refine ⟨_,
          .of_arena ha₃ (g₃.body.trans g.body) (by simp), ⟨rfl, rfl, g.trans g₃⟩,
            storage == .heap, stores, hst, ?_⟩
        simp [placed, OpTree.leaf]
    · rename_i hp
      refine .throw (hr fun h => ?_)
      obtain ⟨fields, rfl, -⟩ := hready h
      exact hp fields rfl

end

end Unnest
