import Unnest.Lower.Branching
import Unnest.Proofs.Tree.Reading
import Unnest.Proofs.Tree.Rename
/-!
# The ends of regions

When a construct is lowered, the terminators of the blocks of its regions are replaced: first they
are looked up, then each is changed in its own block. So the whole loop changes block by block,
and says about each block what one step says.
-/

namespace Unnest

/-- The terminator of a block, if its kind is as asked. -/
def BlockOf.endWhere (p : OpKind → Bool) (b : BlockTree) : Option OpTree :=
  b.ops.getLast?.filter fun n => n.kind.isTerminator && p n.kind

variable {p : OpKind → Bool}

theorem BlockOf.endWhere_eq_some {b : BlockTree} {t : OpTree} (h : b.endWhere p = some t) :
    t.kind.isTerminator = true ∧ p t.kind = true ∧ ∃ ops, b.ops = ops ++ [t] := by
  obtain ⟨hl, hp⟩ := Option.filter_eq_some_iff.mp h
  simp only [Bool.and_eq_true] at hp
  exact ⟨hp.1, hp.2, List.getLast?_eq_some_iff.mp hl⟩

section

variable {stop : Prop} {f f₀ : Func} {e : Entries} {r : Option RegionId}
  {L R blocks : List BlockTree}

theorem Arena.middle (h : Arena f (layout r (L ++ blocks ++ R) + e)) :
    Arena f (layout r blocks) := by
  have := h.left
  rw [layout_append, layout_append] at this
  exact this.left.right

/-- The terminator of a block that the tables hold. -/
theorem Arena.terminator_eq {B : BlockTree} (h : Arena f (B.entries r + e)) :
    f.terminator B.id =
      .ok ((B.ops.getLast?.filter fun n => n.kind.isTerminator).map (·.id)) := by
  rw [BlockOf.entries_eq, add_assoc] at h
  unfold Func.terminator
  rw [h.block_eq]
  cases hl : B.ops.getLast? with
  | none => simp [BlockOf.toBlock, hl, Bind.bind, Except.bind, Pure.pure, Except.pure]
  | some t =>
    have ht : Arena f (t.entries B.id) := h.right.left.of_mem (List.mem_of_getLast? hl)
    rw [OpTree.entries_eq] at ht
    by_cases hk : t.kind.isTerminator <;>
      simp [BlockOf.toBlock, hl, Bind.bind, Except.bind, Pure.pure, Except.pure, ht.kind_eq,
        OpTree.toOp, hk]

theorem Arena.mapM_terminator (h : Arena f (layout r blocks)) :
    (blocks.map (·.id)).mapM Edit.terminator f =
      .ok (blocks.map fun B => (B.ops.getLast?.filter fun n => n.kind.isTerminator).map (·.id))
        f := by
  induction blocks with
  | nil => rfl
  | cons B blocks ih =>
    rw [layout_cons] at h
    have hB : Edit.terminator B.id f =
        .ok ((B.ops.getLast?.filter fun n => n.kind.isTerminator).map (·.id)) f := by
      change (liftM (f.terminator B.id) : Edit (Option OpId)) f = _
      rw [h.terminator_eq]
      rfl
    rw [List.map_cons, List.mapM_cons]
    change EStateM.bind _ _ f = _
    rw [EStateM.bind, hB]
    change EStateM.bind _ _ f = _
    rw [EStateM.bind, ih h.right]
    rfl

variable {p : OpKind → Bool}

/-- The terminators of the asked kind, in the order of the blocks. -/
theorem Arena.terminatorsWhere (h : Arena f (layout r blocks)) :
    Lower.terminatorsWhere (blocks.map (·.id)) p f =
      .ok ((blocks.filterMap (BlockOf.endWhere p)).map (·.id)) f := by
  unfold Lower.terminatorsWhere
  change EStateM.bind _ _ f = _
  rw [EStateM.bind, h.mapM_terminator]
  change EStateM.Result.ok _ f = _
  congr 1
  induction blocks with
  | nil => rfl
  | cons B blocks ih =>
    rw [layout_cons] at h
    have ih := ih h.right
    rw [List.map_cons, List.filterMap_cons, List.filterMap_cons]
    cases hl : B.ops.getLast? with
    | none => simpa [BlockOf.endWhere, hl] using ih
    | some t =>
      have ht : Arena f (t.entries B.id) := by
        have := h.left
        rw [BlockOf.entries_eq] at this
        exact this.right.of_mem (List.mem_of_getLast? hl)
      by_cases hk : t.kind.isTerminator = true <;> by_cases hp : p t.kind = true <;>
        simp_all [BlockOf.endWhere, ht.kindIs_eq, Option.filter_some]

/-- A block with the terminator of the asked kind changed as `rel` says, or left alone. -/
def Ended (p : OpKind → Bool) (rel : BlockTree → BlockTree → Prop) (B B' : BlockTree) : Prop :=
  B'.id = B.id ∧ B'.args = B.args ∧
    match B.endWhere p with
    | some _ => rel B B'
    | none => B' = B

theorem Ended.imp {rel rel' : BlockTree → BlockTree → Prop} {B B' : BlockTree}
    (h : Ended p rel B B') (hr : B.endWhere p ≠ none → rel B B' → rel' B B') :
    Ended p rel' B B' := by
  obtain ⟨hid, ha, h⟩ := h
  refine ⟨hid, ha, ?_⟩
  split at h
  · exact hr (by simp [*]) h
  · exact h

/-- A loop over the terminators of blocks changes block by block. -/
theorem Arena.forEnds {k : OpId → Edit Unit} {q : Func → BlockTree → BlockTree → Prop}
    (hstep : ∀ (f : Func) (L R : List BlockTree) (b : BlockId) (args : List ValueId)
      (ops : List OpTree) (t : OpTree), ⟨b, args, ops ++ [t]⟩ ∈ blocks → f₀.GrowsTo f →
      Arena f (layout r (L ++ ⟨b, args, ops ++ [t]⟩ :: R) + e) →
      t.kind.isTerminator = true → p t.kind = true →
      Meets stop (k t.id) f fun _ f' => ∃ B', q f' ⟨b, args, ops ++ [t]⟩ B' ∧ B'.id = b ∧
        B'.args = args ∧ Arena f' (layout r (L ++ B' :: R) + e) ∧ f.GrowsTo f')
    (hmono : ∀ f f' B B', f.GrowsTo f' → q f B B' → q f' B B') (hf : f₀.GrowsTo f)
    (h : Arena f (layout r (L ++ blocks ++ R) + e)) :
    Meets stop (((blocks.filterMap (BlockOf.endWhere p)).map (·.id)).forM k) f fun _ f' =>
      ∃ blocks', List.Forall₂ (Ended p (q f')) blocks blocks' ∧
        Arena f' (layout r (L ++ blocks' ++ R) + e) ∧ f.GrowsTo f' := by
  induction blocks generalizing f L with
  | nil => exact .pure ⟨[], .nil, h, .refl f⟩
  | cons B blocks ih =>
    cases hB : B.endWhere p with
    | none =>
      rw [List.filterMap_cons_none hB]
      have h₀ : Arena f (layout r ((L ++ [B]) ++ blocks ++ R) + e) := by simpa using h
      refine (ih (fun f L R b args ops t hm => hstep f L R b args ops t (by simp [hm])) hf h₀).mono
        ?_
      rintro _ f' ⟨blocks', hb, h', g⟩
      refine ⟨B :: blocks', .cons ?_ hb, ?_, g⟩
      · exact ⟨rfl, rfl, by rw [hB]⟩
      · simpa using h'
    | some t =>
      rw [List.filterMap_cons_some hB]
      obtain ⟨ht, hp, ops, hops⟩ := BlockOf.endWhere_eq_some hB
      obtain ⟨b, args, _⟩ := B
      simp only at hops
      subst hops
      have h₀ : Arena f (layout r (L ++ ⟨b, args, ops ++ [t]⟩ :: (blocks ++ R)) + e) := by
        simpa using h
      refine .bind (hstep f L _ b args ops t (by simp) hf h₀ ht hp) ?_
      rintro _ f₁ ⟨B', hrel, hid, hargs, h₁, g₁⟩
      have h₁' : Arena f₁ (layout r ((L ++ [B']) ++ blocks ++ R) + e) := by simpa using h₁
      refine (ih (fun f L R b args ops t hm => hstep f L R b args ops t (by simp [hm]))
        (hf.trans g₁) h₁').mono ?_
      rintro _ f₂ ⟨blocks', hb, h₂, g₂⟩
      refine ⟨B' :: blocks', .cons ?_ hb, ?_, g₁.trans g₂⟩
      · exact ⟨hid, hargs, by rw [hB]; exact hmono _ _ _ _ g₂ hrel⟩
      · simpa using h₂

end

/-- The block with the head of its terminator changed, if that is of the asked kind. -/
def BlockOf.mapEnd (p : OpKind → Bool) (g : Head → Head) (B : BlockTree) : BlockTree :=
  match B.endWhere p with
  | some t => ⟨B.id, B.args, B.ops.dropLast ++ [.mk (g t.head) t.regions]⟩
  | none => B

/-- The yield at the end of a block becomes a branch that passes on what it yields. -/
def BlockOf.yieldTo (target : BlockId) : BlockTree → BlockTree :=
  BlockOf.mapEnd OpKind.isYield fun h => { h with kind := .transfer (.br target) }

/-- The end of a block becomes a branch without values. -/
def BlockOf.endTo (p : OpKind → Bool) (target : BlockId) : BlockTree → BlockTree :=
  BlockOf.mapEnd p fun h => { h with kind := .transfer (.br target), operands := [] }

theorem eq_map_mapEnd {g : Head → Head} {Bs Bs' : List BlockTree}
    (h : List.Forall₂ (Ended p fun B B' => B' = B.mapEnd p g) Bs Bs') :
    Bs' = Bs.map (BlockOf.mapEnd p g) := by
  induction h with
  | nil => rfl
  | @cons B B' _ _ hB _ ih =>
    rw [List.map_cons, ← ih]
    congr 1
    obtain ⟨-, -, hB⟩ := hB
    cases hE : B.endWhere p with
    | none => rw [hE] at hB; rw [hB, BlockOf.mapEnd, hE]
    | some t => rw [hE] at hB; exact hB

theorem BlockOf.mapEnd_append {g : Head → Head} {b : BlockId} {args : List ValueId}
    {ops : List OpTree} {t : OpTree} (ht : t.kind.isTerminator = true) (hp : p t.kind = true) :
    BlockOf.mapEnd p g ⟨b, args, ops ++ [t]⟩ = ⟨b, args, ops ++ [.mk (g t.head) t.regions]⟩ := by
  simp [BlockOf.mapEnd, BlockOf.endWhere, ht, hp, Option.filter_some]

section

variable {stop : Prop} {f : Func} {e : Entries} {r : Option RegionId}
  {L R blocks : List BlockTree} {b : BlockId} {args : List ValueId} {pre post : List OpTree}
  {x : OpTree}

variable {target : BlockId}

theorem Arena.makeBranch {operands : List ValueId}
    (h : Arena f (layout r (L ++ ⟨b, args, pre ++ x :: post⟩ :: R) + e)) :
    Meets stop (Lower.makeBranch x.id target operands) f fun _ f' =>
      Arena f' (layout r (L ++ ⟨b, args, pre ++ .mk { x.head with
        kind := .transfer (.br target), operands } x.regions :: post⟩ :: R) + e) ∧
        f.Grows f' [] := by
  refine .bind (h.modifyHead { x.head with kind := .transfer (.br target) } rfl rfl rfl) ?_
  rintro _ f₁ ⟨h₁, g₁⟩
  refine (h₁.modifyHead { x.head with kind := .transfer (.br target), operands } rfl rfl
    rfl).mono ?_
  rintro _ f₂ ⟨h₂, g₂⟩
  exact ⟨h₂, by simpa using g₁.trans g₂⟩

theorem Arena.yieldsTo (h : Arena f (layout r (L ++ blocks ++ R) + e)) :
    Meets stop (Lower.yieldsTo (blocks.map (·.id)) target) f fun _ f' =>
      Arena f' (layout r (L ++ blocks.map (BlockOf.yieldTo target) ++ R) + e) ∧ f.GrowsTo f' := by
  refine .step h.middle.terminatorsWhere ?_
  refine (Arena.forEnds (q := fun _ B B' => B' = B.yieldTo target) ?_ (fun _ _ _ _ _ h => h)
    (.refl f) h).mono ?_
  · intro f L R b args ops t _ _ h ht hp
    refine .step h.at_op.getOp ?_
    refine h.makeBranch.mono ?_
    rintro _ f' ⟨h', g⟩
    refine ⟨_, rfl, ?_, ?_, ?_, g.growsTo⟩
    · rw [BlockOf.yieldTo, BlockOf.mapEnd_append ht hp]
    · rw [BlockOf.yieldTo, BlockOf.mapEnd_append ht hp]
    · rw [BlockOf.yieldTo, BlockOf.mapEnd_append ht hp]
      exact h'
  · rintro _ f' ⟨blocks', hb, h', g⟩
    obtain rfl := eq_map_mapEnd hb
    exact ⟨h', g⟩

/-! ## Conditions -/

/-- How a condition `cond` becomes the flag of a branch: as it is when it is a truth value, and
with a cast before the branch otherwise. A value that is new has a number from `n` on. -/
inductive Flag (n : Nat) (f : Func) (span : Option Span) (cond : ValueId) :
    ValueId → List OpTree → Prop
  | same {o : Origin} (h : f.value? cond = some ⟨.bool, o⟩) : Flag n f span cond cond []
  | cast {ty : Ty} {o o' : Origin} {i : OpId} {v : ValueId} (h : f.value? cond = some ⟨ty, o⟩)
      (hty : ty ≠ .bool) (hn : n ≤ v.index) (hv : f.value? v = some ⟨.bool, o'⟩) :
      Flag n f span cond v [.leaf ⟨i, .instr .cast, [cond], [v], span⟩]

variable {n : Nat} {f' : Func}

theorem Flag.mono {span : Option Span} {cond flag : ValueId} {casts : List OpTree}
    (h : Flag n f span cond flag casts) (g : f.GrowsTo f') : Flag n f' span cond flag casts := by
  cases h with
  | same h => exact .same (g.value?_of_some h)
  | cast h hty hn hv => exact .cast (g.value?_of_some h) hty hn (g.value?_of_some hv)

theorem Func.Grows.value?_new {d : ValueInfo} (g : f.Grows f' [d]) :
    f'.value? ⟨f.values.size⟩ = some d := by
  simp [Func.value?, g.values]

theorem Func.freshValues_one (f : Func) : f.freshValues 1 = [⟨f.values.size⟩] := rfl

theorem Arena.truthValue {cond : ValueId} (hn : n ≤ f.values.size)
    (hc : f.value? cond = none → stop)
    (h : Arena f (layout r (L ++ ⟨b, args, pre ++ x :: post⟩ :: R) + e)) :
    Meets stop (Lower.truthValue x.id cond) f fun flag f' => ∃ casts,
      Flag n f' x.head.span cond flag casts ∧
        Arena f' (layout r (L ++ ⟨b, args, pre ++ casts ++ x :: post⟩ :: R) + e) ∧
          f.GrowsTo f' := by
  unfold Lower.truthValue
  cases hv : f.value? cond with
  | none => exact .fail (valueTy_eq_error hv) (hc hv)
  | some d =>
    obtain ⟨ty, o⟩ := d
    refine .step (valueTy_eq hv) ?_
    by_cases hty : ty = .bool
    · subst hty
      simp only [if_true]
      exact .pure ⟨[], .same hv, by simpa using h, .refl f⟩
    · simp only [hty, if_false]
      refine .bind h.emitBefore ?_
      rintro id f₁ ⟨h₁, g₁⟩
      simp only [List.length_cons, List.length_nil, zero_add, Func.freshValues_one] at h₁
      refine .of_ok (h₁.at_op.result rfl) ⟨_,
        .cast (i := id) (g₁.value?_of_some hv) hty hn g₁.value?_new, ?_, g₁.growsTo⟩
      simpa using h₁

/-- A block whose condition has become a conditional branch. -/
def Tested (n : Nat) (thenTo elseTo : BlockId) (f : Func) (B B' : BlockTree) : Prop :=
  ∃ b args ops t cond fwd flag casts, B = ⟨b, args, ops ++ [t]⟩ ∧ t.head.operands = cond :: fwd ∧
    Flag n f t.head.span cond flag casts ∧
      B' = ⟨b, args, ops ++ casts ++ [.mk { t.head with
        kind := .transfer (.condBr thenTo elseTo fwd.length)
        operands := flag :: fwd ++ fwd } t.regions]⟩

variable {thenTo elseTo : BlockId} {B B' : BlockTree}

theorem Tested.mono (g : f.GrowsTo f') (h : Tested n thenTo elseTo f B B') :
    Tested n thenTo elseTo f' B B' := by
  obtain ⟨b, args, ops, t, cond, fwd, flag, casts, hB, ht, hf, hB'⟩ := h
  exact ⟨b, args, ops, t, cond, fwd, flag, casts, hB, ht, hf.mono g, hB'⟩

theorem Arena.lowerCondition (hn : n ≤ f.values.size)
    (hc : ∀ cond fwd, x.head.operands = cond :: fwd → f.value? cond = none → stop)
    (hx : x.head.operands = [] → stop)
    (h : Arena f (layout r (L ++ ⟨b, args, pre ++ [x]⟩ :: R) + e)) :
    Meets stop (Lower.lowerCondition thenTo elseTo x.id) f fun _ f' => ∃ B',
      Tested n thenTo elseTo f' ⟨b, args, pre ++ [x]⟩ B' ∧ B'.id = b ∧ B'.args = args ∧
        Arena f' (layout r (L ++ B' :: R) + e) ∧ f.GrowsTo f' := by
  refine .step h.at_op.getOp ?_
  cases ho : x.head.operands with
  | nil =>
    simp only [OpTree.toOp, ho]
    exact .throw (hx ho)
  | cons cond fwd =>
    simp only [OpTree.toOp, ho]
    refine .bind (h.truthValue hn (hc cond fwd ho)) ?_
    rintro flag f₁ ⟨casts, hfl, h₁, g₁⟩
    refine .bind (h₁.modifyHead { x.head with
      kind := .transfer (.condBr thenTo elseTo fwd.length) } rfl rfl rfl) ?_
    rintro _ f₂ ⟨h₂, g₂⟩
    refine (h₂.modifyHead { x.head with
      kind := .transfer (.condBr thenTo elseTo fwd.length), operands := flag :: fwd ++ fwd } rfl
      rfl rfl).mono ?_
    rintro _ f₃ ⟨h₃, g₃⟩
    refine ⟨_, ?_, ?_, ?_, h₃, (g₁.trans g₂.growsTo).trans g₃.growsTo⟩
    · exact ⟨b, args, pre, x, cond, fwd, flag, casts, rfl, ho,
        hfl.mono (g₂.growsTo.trans g₃.growsTo), rfl⟩
    · rfl
    · rfl

/-- The conditions of the blocks can be tested: each has a flag that exists. -/
def HasFlag (f : Func) (B : BlockTree) : Prop :=
  ∀ t, B.endWhere (· == .construct .condition) = some t →
    ∃ cond fwd, t.head.operands = cond :: fwd ∧ f.value? cond ≠ none

/-- A missing flag is one of the reasons to stop. -/
theorem HasFlag.or_stop {f₁ : Func} {ops : List OpTree} {t : OpTree}
    (hc : ¬(∀ B ∈ blocks, HasFlag f B) → stop) (hm : ⟨b, args, ops ++ [t]⟩ ∈ blocks)
    (hk : t.kind = .construct .condition) (g : f.GrowsTo f₁) :
    (∀ cond fwd, t.head.operands = cond :: fwd → f₁.value? cond = none → stop) ∧
      (t.head.operands = [] → stop) := by
  by_cases hf : HasFlag f ⟨b, args, ops ++ [t]⟩
  · obtain ⟨cond, fwd, ho, hv⟩ := hf t (by
      simp [BlockOf.endWhere, hk, OpKind.isTerminator, Construct.isTerminator, Option.filter_some])
    obtain ⟨d, hd⟩ := Option.ne_none_iff_exists'.mp hv
    rw [ho]
    refine ⟨?_, by simp⟩
    rintro _ _ ⟨⟩ hv₁
    rw [g.value?_of_some hd] at hv₁
    cases hv₁
  · have hs : stop := hc fun hall => hf (hall _ hm)
    exact ⟨fun _ _ _ _ => hs, fun _ => hs⟩

theorem Arena.conditionsTo (hn : n ≤ f.values.size) (hc : ¬(∀ B ∈ blocks, HasFlag f B) → stop)
    (h : Arena f (layout r (L ++ blocks ++ R) + e)) :
    Meets stop (Lower.conditionsTo (blocks.map (·.id)) thenTo elseTo) f fun _ f' => ∃ blocks',
      List.Forall₂ (Ended (· == .construct .condition) (Tested n thenTo elseTo f')) blocks blocks' ∧
        Arena f' (layout r (L ++ blocks' ++ R) + e) ∧ f.GrowsTo f' := by
  refine .step h.middle.terminatorsWhere ?_
  refine Arena.forEnds ?_ (fun _ _ _ _ g h => h.mono g) (.refl f) h
  intro f₁ L R b args ops t hm g₁ h₁ _ hp
  obtain ⟨hcond, hnil⟩ := HasFlag.or_stop hc hm (by simpa using hp) g₁
  exact h₁.lowerCondition (hn.trans g₁.size_le) hcond hnil

/-! ## Tests of loops -/

/-- Which terminators end the condition of a loop. -/
def Construct.isTest : Construct → OpKind → Bool
  | .forLoop _, k => k == .construct .condition || k == .construct .noCondition
  | _, k => k == .construct .condition

/-- A block that tests whether a loop goes on: it branches on its condition, or always goes to the
body when it has none. -/
def LoopTested (n : Nat) (bodyTo next : BlockId) (f : Func) (B B' : BlockTree) : Prop :=
  ∃ b args ops t, B = ⟨b, args, ops ++ [t]⟩ ∧
    if t.kind = .construct .noCondition then
      B' = ⟨b, args, ops ++ [.mk { t.head with kind := .transfer (.br bodyTo), operands := [] }
        t.regions]⟩
    else Tested n bodyTo next f B B'

variable {bodyTo next : BlockId}

theorem LoopTested.mono (g : f.GrowsTo f') (h : LoopTested n bodyTo next f B B') :
    LoopTested n bodyTo next f' B B' := by
  obtain ⟨b, args, ops, t, hB, h⟩ := h
  refine ⟨b, args, ops, t, hB, ?_⟩
  split
  · simpa [*] using h
  · rw [if_neg ‹_›] at h
    exact h.mono g

theorem LoopTested.of_tested (hB : B.endWhere (· == .construct .condition) ≠ none)
    (h : Tested n bodyTo next f B B') : LoopTested n bodyTo next f B B' := by
  obtain ⟨t, ht⟩ := Option.ne_none_iff_exists'.mp hB
  obtain ⟨-, hk, ops, hops⟩ := BlockOf.endWhere_eq_some ht
  refine ⟨B.id, B.args, ops, t, by rw [← hops], ?_⟩
  have hk : t.kind = .construct .condition := by simpa using hk
  rw [if_neg (by simp [hk])]
  exact h

theorem Arena.lowerLoopTest (hn : n ≤ f.values.size) (hc : x.kind ≠ .construct .noCondition →
      (∀ cond fwd, x.head.operands = cond :: fwd → f.value? cond = none → stop) ∧
        (x.head.operands = [] → stop))
    (h : Arena f (layout r (L ++ ⟨b, args, pre ++ [x]⟩ :: R) + e)) :
    Meets stop (Lower.lowerLoopTest bodyTo next x.id) f fun _ f' => ∃ B',
      LoopTested n bodyTo next f' ⟨b, args, pre ++ [x]⟩ B' ∧ B'.id = b ∧ B'.args = args ∧
        Arena f' (layout r (L ++ B' :: R) + e) ∧ f.GrowsTo f' := by
  refine .step h.at_op.getKind ?_
  by_cases hk : x.kind = .construct .noCondition
  · simp only [OpTree.toOp, hk, if_true]
    refine h.makeBranch.mono ?_
    rintro _ f' ⟨h', g⟩
    refine ⟨_, ⟨b, args, pre, x, rfl, ?_⟩, ?_, ?_, h', g.growsTo⟩
    · rw [if_pos hk]
    · rfl
    · rfl
  · simp only [OpTree.toOp, hk, if_false]
    refine (h.lowerCondition hn (hc hk).1 (hc hk).2).mono ?_
    rintro _ f' ⟨B', hB, hid, ha, h', g⟩
    refine ⟨B', ⟨b, args, pre, x, rfl, ?_⟩, hid, ha, h', g⟩
    rwa [if_neg hk]

theorem Arena.loopTests (hn : n ≤ f.values.size) (hc : ¬(∀ B ∈ blocks, HasFlag f B) → stop)
    (h : Arena f (layout r (L ++ blocks ++ R) + e)) (label : Option String) :
    Meets stop (((blocks.filterMap (BlockOf.endWhere (Construct.forLoop label).isTest)).map
      (·.id)).forM fun term => Lower.lowerLoopTest bodyTo next term) f fun _ f' => ∃ blocks',
        List.Forall₂ (Ended (Construct.forLoop label).isTest (LoopTested n bodyTo next f'))
          blocks blocks' ∧ Arena f' (layout r (L ++ blocks' ++ R) + e) ∧ f.GrowsTo f' := by
  refine Arena.forEnds ?_ (fun _ _ _ _ g h => h.mono g) (.refl f) h
  intro f₁ L R b args ops t hm g₁ h₁ _ hp
  refine h₁.lowerLoopTest (hn.trans g₁.size_le) fun hk => HasFlag.or_stop hc hm ?_ g₁
  simpa [Construct.isTest, hk] using hp

/-! ## Merges -/

theorem Arena.mergesTo (h : Arena f (layout r (L ++ blocks ++ R) + e)) :
    Meets stop (((blocks.filterMap (BlockOf.endWhere (· == .construct .merge))).map (·.id)).forM
      fun term => Lower.makeBranch term target []) f fun _ f' =>
        Arena f' (layout r (L ++ blocks.map (BlockOf.endTo (· == .construct .merge) target) ++ R) +
          e) ∧ f.GrowsTo f' := by
  refine (Arena.forEnds (q := fun _ B B' => B' = B.endTo (· == .construct .merge) target) ?_
    (fun _ _ _ _ _ h => h) (.refl f) h).mono ?_
  · intro f L R b args ops t _ _ h ht hp
    refine h.makeBranch.mono ?_
    rintro _ f' ⟨h', g⟩
    refine ⟨_, rfl, ?_, ?_, ?_, g.growsTo⟩
    · rw [BlockOf.endTo, BlockOf.mapEnd_append ht hp]
    · rw [BlockOf.endTo, BlockOf.mapEnd_append ht hp]
    · rw [BlockOf.endTo, BlockOf.mapEnd_append ht hp]
      exact h'
  · rintro _ f' ⟨blocks', hb, h', g⟩
    obtain rfl := eq_map_mapEnd hb
    exact ⟨h', g⟩

end

end Unnest
