import Unnest.Proofs.Lowering.Ends
/-!
# Landing pads

The pads of a try are built from blocks that have no owner yet and are laid out later. The pad in
front of the clone of a finally takes every exception; the pad in front of the catches tests the
type first if the catch clause declares one.
-/

namespace Unnest

section

variable {stop : Prop} {f : Func} {e : Entries} {body L R : List BlockTree} {b : BlockId}
  {args : List ValueId} {pre : List OpTree}

/-- The blocks without an owner. -/
theorem Func.Holds.loose {Bs : List BlockTree} (h : f.Holds body (layout none Bs + e)) :
    Arena f (layout none Bs + (.region f.body ⟨body.map (·.id), none⟩ +
      (layout (some f.body) body + e))) :=
  Arena.as h (by abel)

theorem Func.Holds.of_loose {Bs : List BlockTree} {r : RegionId}
    (h : Arena f (layout none Bs + (.region r ⟨body.map (·.id), none⟩ +
      (layout (some r) body + e)))) (hr : f.body = r) : f.Holds body (layout none Bs + e) := by
  subst hr
  exact Arena.as h (by abel)

theorem Func.Holds.as_loose {Bs c : List BlockTree} (h : f.Holds body (layout none Bs + e))
    (hc : Bs = c) : f.Holds body (layout none c + e) := hc ▸ h

/-- A new block behind other blocks without an owner. -/
theorem Func.Holds.newLoose {Bs : List BlockTree} (h : f.Holds body (layout none Bs + e)) :
    Meets stop (Edit.newBlock []) f fun id f' =>
      f'.Holds body (layout none (Bs ++ ⟨id, [], []⟩ :: []) + e) ∧ f.GrowsTo f' := by
  refine h.newBlock.mono ?_
  rintro id f' ⟨h', g⟩
  refine ⟨h'.as ?_, g.growsTo⟩
  rw [layout_append, add_left_comm, add_assoc]
  rfl

/-- An op without results at the end of a block without an owner. -/
theorem Func.Holds.emit (kind : OpKind) (operands : List ValueId)
    (h : f.Holds body (layout none (L ++ ⟨b, args, pre⟩ :: R) + e)) :
    Meets stop (Edit.emitAtEnd b kind operands []) f fun id f' =>
      f'.Holds body (layout none (L ++ ⟨b, args, pre ++ [.leaf ⟨id, kind, operands, [], none⟩]⟩ ::
        R) + e) ∧ f.GrowsTo f' := by
  refine h.loose.emitAtEnd.mono ?_
  rintro id f' ⟨h', g⟩
  exact ⟨.of_loose h' g.body, g.growsTo⟩

/-- An op with one result at the end of a block without an owner. -/
theorem Func.Holds.emitValue (kind : OpKind) (operands : List ValueId) (ty : Ty)
    (h : f.Holds body (layout none (L ++ ⟨b, args, pre⟩ :: R) + e)) :
    Meets stop (do Edit.result (← Edit.emitAtEnd b kind operands [ty])) f fun v f' => ∃ id,
      f'.Holds body (layout none (L ++ ⟨b, args, pre ++ [.leaf ⟨id, kind, operands, [v], none⟩]⟩ ::
        R) + e) ∧ f.values.size ≤ v.index ∧ f'.value? v = some ⟨ty, .opResult id 0⟩ ∧
          f.GrowsTo f' := by
  refine .bind h.loose.emitAtEnd ?_
  rintro id f' ⟨h', g⟩
  simp only [List.length_cons, List.length_nil, zero_add, Func.freshValues_one] at h'
  exact .of_ok (h'.at_op.result rfl) ⟨id, .of_loose h' g.body, le_refl _, g.value?_new, g.growsTo⟩

/-- A step that gives the op and then its result. -/
theorem Meets.result_bind {α : Type} {x : Edit OpId} {k : ValueId → Edit α} {post : α → Func → Prop}
    {m : ValueId → Func → Prop} (h : Meets stop (do Edit.result (← x)) f m)
    (hk : ∀ v f', m v f' → Meets stop (k v) f' post) :
    Meets stop (do
      let op ← x
      let v ← Edit.result op
      k v) f post := by
  have := Meets.bind h hk
  rwa [bind_assoc] at this

end

/-! ## The pad of a finally -/

/-- The pad in front of the clone of a finally. -/
def cleanupPad (exit : Lower.CleanupExit) (pad entry : BlockId) (i j k : OpId)
    (exception payload : ValueId) : BlockTree :=
  ⟨pad, [], [.leaf ⟨i, .instr (.landingPad exit.isCleanup none), [], [exception], none⟩,
    if exit.isCleanup then .leaf ⟨j, .instr .beginCleanup, [], [], none⟩
    else .leaf ⟨j, .instr .beginCatch, [exception], [payload], none⟩,
    .leaf ⟨k, .transfer (.br entry), [], [], none⟩]⟩

/-- The end of the clone of a finally passes the exception on. -/
def BlockOf.passOn (exit : Lower.CleanupExit) (exception : ValueId) : BlockTree → BlockTree :=
  BlockOf.mapEnd OpKind.isYield fun h =>
    { h with kind := .transfer exit.transfer, operands := [exception] }

section

variable {stop : Prop} {f : Func} {e : Entries} {r : Option RegionId} {body : List BlockTree}

theorem Arena.passOn {L R blocks : List BlockTree} (exit : Lower.CleanupExit)
    (exception : ValueId) (h : Arena f (layout r (L ++ blocks ++ R) + e)) :
    Meets stop (((blocks.filterMap (BlockOf.endWhere OpKind.isYield)).map (·.id)).forM
      fun term => do
      Edit.replaceKind term (.transfer exit.transfer)
      Edit.setOperands term [exception]) f fun _ f' =>
        Arena f' (layout r (L ++ blocks.map (BlockOf.passOn exit exception) ++ R) + e) ∧
          f.GrowsTo f' := by
  refine (Arena.forEnds (q := fun _ B B' => B' = B.passOn exit exception) ?_
    (fun _ _ _ _ _ h => h) (.refl f) h).mono ?_
  · intro f L R b args ops t _ _ h ht hp
    refine .bind (h.modifyHead { t.head with kind := .transfer exit.transfer } rfl rfl rfl) ?_
    rintro _ f₁ ⟨h₁, g₁⟩
    refine (h₁.modifyHead { t.head with
        kind := .transfer exit.transfer, operands := [exception] } rfl rfl rfl).mono ?_
    rintro _ f₂ ⟨h₂, g₂⟩
    refine ⟨_, rfl, ?_, ?_, ?_, g₁.growsTo.trans g₂.growsTo⟩
    · rw [BlockOf.passOn, BlockOf.mapEnd_append ht hp]
    · rw [BlockOf.passOn, BlockOf.mapEnd_append ht hp]
    · rw [BlockOf.passOn, BlockOf.mapEnd_append ht hp]
      exact h₂
  · rintro _ f' ⟨blocks', hb, h', g⟩
    obtain rfl := eq_map_mapEnd hb
    exact ⟨h', g⟩

theorem Func.Holds.buildCleanupPad {Cl : List BlockTree} (entry : BlockId)
    (exit : Lower.CleanupExit) (h : f.Holds body (layout none Cl + e)) :
    Meets stop (Lower.buildCleanupPad (Cl.map (·.id)) entry exit) f fun pad f' =>
      ∃ i j k exception payload, f.values.size ≤ exception.index ∧
        f.values.size ≤ payload.index ∧ f'.Holds body (layout none
          (cleanupPad exit pad entry i j k exception payload ::
            Cl.map (BlockOf.passOn exit exception)) + e) ∧ f.GrowsTo f' := by
  refine .bind h.newBlock ?_
  rintro pad f₁ ⟨h₁, g₁⟩
  have h₁ : f₁.Holds body (layout none ([] ++ ⟨pad, [], []⟩ :: Cl) + e) :=
    h₁.as (by simp only [List.length_nil, Func.freshValues_zero, List.nil_append, layout_cons,
      layout_nil]; abel)
  refine .result_bind (h₁.emitValue _ _ _) ?_
  rintro exception f₂ ⟨i, h₂, hn, _, g₂⟩
  have hn : f.values.size ≤ exception.index := g₁.growsTo.size_le.trans hn
  have g := g₁.growsTo.trans g₂
  -- the rest, once the pad has been entered
  have hrest : ∀ f₃ x, f₃.Holds body (layout none ([] ++ ⟨pad, [], [.leaf ⟨i,
      .instr (.landingPad exit.isCleanup none), [], [exception], none⟩, x]⟩ :: Cl) + e) →
      Meets stop (do
        let _ ← Edit.emitAtEnd pad (.transfer (.br entry)) [] []
        (← Lower.terminatorsWhere (Cl.map (·.id)) OpKind.isYield).forM fun term => do
          Edit.replaceKind term (.transfer exit.transfer)
          Edit.setOperands term [exception]
        return pad) f₃ fun pad' f' => pad' = pad ∧ ∃ k, f'.Holds body (layout none
          (⟨pad, [], [.leaf ⟨i, .instr (.landingPad exit.isCleanup none), [], [exception], none⟩,
            x, .leaf ⟨k, .transfer (.br entry), [], [], none⟩]⟩ ::
              Cl.map (BlockOf.passOn exit exception)) + e) ∧ f₃.GrowsTo f' := by
    intro f₃ x h₃
    refine .bind (h₃.emit _ _) ?_
    rintro k f₄ ⟨h₄, g₄⟩
    have h₄ : f₄.Holds body (layout none ([⟨pad, [], [.leaf ⟨i,
        .instr (.landingPad exit.isCleanup none), [], [exception], none⟩, x, .leaf ⟨k,
          .transfer (.br entry), [], [], none⟩]⟩] ++ Cl ++ []) + e) := by simpa using h₄
    have hends : Meets stop _ _ _ := h₄.loose.passOn exit exception
    refine .step h₄.loose.middle.terminatorsWhere (.bind hends ?_)
    rintro _ f₅ ⟨h₅, g₅⟩
    exact .pure ⟨rfl, k, .of_loose (by simpa using h₅) g₅.body, g₄.trans g₅⟩
  cases exit with
  | chain outer =>
    simp only [Lower.CleanupExit.isCleanup, if_true] at h₂ hrest ⊢
    refine .bind (h₂.emit _ _) ?_
    rintro j f₃ ⟨h₃, g₃⟩
    refine (hrest f₃ _ (by simpa using h₃)).mono ?_
    rintro _ f' ⟨rfl, k, h', g'⟩
    exact ⟨i, j, k, exception, exception, hn, hn, h',
      (g.trans g₃).trans g'⟩
  | rethrow outer =>
    simp only [Lower.CleanupExit.isCleanup, Bool.false_eq_true, if_false] at h₂ hrest ⊢
    have hb : Meets stop (Edit.emitAtEnd pad (.instr .beginCatch) [exception] [.any]) f₂
        fun j f₃ => ∃ payload, f₃.Holds body (layout none ([] ++ ⟨pad, [], [.leaf ⟨i,
          .instr (.landingPad false none), [], [exception], none⟩, .leaf ⟨j, .instr .beginCatch,
            [exception], [payload], none⟩]⟩ :: Cl) + e) ∧ f₂.values.size ≤ payload.index ∧
              f₂.GrowsTo f₃ := by
      refine h₂.loose.emitAtEnd.mono ?_
      rintro j f₃ ⟨h₃, g₃⟩
      exact ⟨⟨f₂.values.size⟩, .of_loose h₃ g₃.body, le_refl _, g₃.growsTo⟩
    refine .bind hb ?_
    rintro j f₃ ⟨payload, h₃, hp, g₃⟩
    refine (hrest f₃ _ h₃).mono ?_
    rintro _ f' ⟨rfl, k, h', g'⟩
    exact ⟨i, j, k, exception, payload, hn, g.size_le.trans hp, h',
      (g.trans g₃).trans g'⟩

/-! ## The pad of the catches -/

/-- The pad in front of the catches and the blocks it consists of; `payload` is what it hands to the
catch clauses. The values that are new have numbers from `n` on. -/
inductive LandingPad (n : Nat) (f : Func) (entry : BlockId) (cleanup outer : Option BlockId)
    (pad : BlockId) (payload : ValueId) : Option (Ty × TypeToken) → List BlockTree → Prop
  | any {i j k : OpId} {exception : ValueId} (hn : n ≤ exception.index) :
      LandingPad n f entry cleanup outer pad payload none
        [⟨pad, [], [.leaf ⟨i, .instr (.landingPad false none), [], [exception], none⟩,
          .leaf ⟨j, .instr .beginCatch, [exception], [payload], none⟩,
          .leaf ⟨k, .transfer (.br entry), [], [], none⟩]⟩]
  | typed {ty : Ty} {token : TypeToken} {start mismatch : BlockId} {i j k l m o : OpId}
      {exception matched : ValueId} (hn : n ≤ exception.index) (hm : n ≤ matched.index) :
      LandingPad n f entry cleanup outer pad payload (some (ty, token))
        [⟨pad, [], [.leaf ⟨i, .instr (.landingPad false (some token)), [], [exception], none⟩,
          .leaf ⟨j, .instr (.matchType token), [exception], [matched], none⟩,
          .leaf ⟨k, .transfer (.condBr start mismatch 0), [matched], [], none⟩]⟩,
        ⟨start, [], [.leaf ⟨l, .instr .beginCatch, [exception], [payload], none⟩,
          .leaf ⟨m, .transfer (.br entry), [], [], none⟩]⟩,
        ⟨mismatch, [], [.leaf ⟨o,
          .transfer (Lower.mismatchTransfer cleanup outer exception).1,
            (Lower.mismatchTransfer cleanup outer exception).2, [], none⟩]⟩]

theorem LandingPad.mono {n m : Nat} {f f' : Func} {entry pad : BlockId}
    {cleanup outer : Option BlockId} {payload : ValueId} {type : Option (Ty × TypeToken)}
    {pads : List BlockTree} (h : LandingPad n f entry cleanup outer pad payload type pads)
    (hm : m ≤ n) : LandingPad m f' entry cleanup outer pad payload type pads := by
  cases h with
  | any hn => exact .any (hm.trans hn)
  | typed hn ht => exact .typed (hm.trans hn) (hm.trans ht)

theorem Func.Holds.buildLandingPad (entry : BlockId) (type : Option (Ty × TypeToken))
    (cleanup outer : Option BlockId) (h : f.Holds body e) :
    Meets stop (Lower.buildLandingPad entry type cleanup outer) f fun a f' => ∃ pads,
      LandingPad f.values.size f' entry cleanup outer a.1 a.2.2 type pads ∧
        a.2.1 = pads.map (·.id) ∧ f.values.size ≤ a.2.2.index ∧
          f'.Holds body (layout none pads + e) ∧ f.GrowsTo f' := by
  have h : f.Holds body (layout none [] + e) := h.as (zero_add e).symm
  refine .bind h.newLoose ?_
  rintro pad f₁ ⟨h₁, g₁⟩
  refine .result_bind (h₁.emitValue _ _ _) ?_
  rintro exception f₂ ⟨i, h₂, hn, _, g₂⟩
  have g := g₁.trans g₂
  have hn : f.values.size ≤ exception.index := g₁.size_le.trans hn
  cases type with
  | none =>
    refine .result_bind (h₂.emitValue _ _ _) ?_
    rintro payload f₃ ⟨j, h₃, hp, _, g₃⟩
    refine .bind (h₃.emit _ _) ?_
    rintro k f₄ ⟨h₄, g₄⟩
    exact .pure ⟨_, .any (i := i) (j := j) (k := k) hn, rfl,
      g.size_le.trans hp, by simpa using h₄, (g.trans g₃).trans g₄⟩
  | some type =>
    obtain ⟨ty, token⟩ := type
    refine .result_bind (h₂.emitValue _ _ _) ?_
    rintro matched f₃ ⟨j, h₃, hm, _, g₃⟩
    refine .bind h₃.newLoose ?_
    rintro start f₄ ⟨h₄, g₄⟩
    refine .result_bind (h₄.emitValue _ _ _) ?_
    rintro payload f₅ ⟨l, h₅, hp, _, g₅⟩
    refine .bind (h₅.emit _ _) ?_
    rintro m f₆ ⟨h₆, g₆⟩
    refine .bind h₆.newLoose ?_
    rintro mismatch f₇ ⟨h₇, g₇⟩
    refine .bind (h₇.emit _ _) ?_
    rintro o f₈ ⟨h₈, g₈⟩
    have h₈ := h₈.as_loose (c := [] ++ ⟨pad, [], [.leaf ⟨i, .instr (.landingPad false (some token)),
      [], [exception], none⟩, .leaf ⟨j, .instr (.matchType token), [exception], [matched],
      none⟩]⟩ ::
        [⟨start, [], [.leaf ⟨l, .instr .beginCatch, [exception], [payload], none⟩,
          .leaf ⟨m, .transfer (.br entry), [], [], none⟩]⟩, ⟨mismatch, [], [.leaf ⟨o,
            .transfer (Lower.mismatchTransfer cleanup outer exception).1,
              (Lower.mismatchTransfer cleanup outer exception).2, [], none⟩]⟩]) rfl
    refine .bind (h₈.emit _ _) ?_
    rintro k f₉ ⟨h₉, g₉⟩
    exact .pure ⟨_, .typed (i := i) (j := j) (k := k)
      (l := l) (m := m) (o := o) hn (g.size_le.trans hm), rfl,
      (g.trans (g₃.trans g₄)).size_le.trans hp, by simpa using h₉,
      (((((((g.trans g₃).trans g₄).trans g₅).trans g₆).trans g₇).trans g₈).trans g₉)⟩

end

end Unnest
