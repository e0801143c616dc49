import Unnest.Proofs.Lowering.Rounds
import Unnest.Proofs.Tree.Path
/-!
# Where the ops come from

The lowering of a construct emits flat code and moves ops: what lay in its regions is at the top
level afterwards, and the finally of a try is there twice. So an op that is found on a path in the
new body is flat code, or it was there before (`ComesFrom`): outside of the construct, in one of its
regions, or, for a copy, in the finally.
-/

namespace Unnest

/-- The instruction starts a landing pad. -/
@[simp] def Instr.isLandingPad : Instr → Bool
  | .landingPad _ _ => true
  | _ => false

/-- The pad that the transfer unwinds to. -/
@[simp] def Transfer.unwind? : Transfer → Option BlockId
  | .invoke _ _ unwind => some unwind
  | .throwTo unwind => some unwind
  | .endCleanup unwind => unwind
  | _ => none

/-- The op starts a landing pad. -/
def OpKind.isLandingPad : OpKind → Bool
  | .instr i => i.isLandingPad
  | _ => false

/-- The block that an exception raised by the op goes to. -/
def OpKind.unwind? : OpKind → Option BlockId
  | .transfer t => t.unwind?
  | _ => none

/-- Takes no exception and sends none to another block. -/
def OpKind.Calm (k : OpKind) : Prop := k.isLandingPad = false ∧ k.unwind? = none

@[simp] theorem OpKind.calm_instr (i : Instr) : (instr i).Calm ↔ i.isLandingPad = false := by
  simp [Calm, isLandingPad, unwind?]

@[simp] theorem OpKind.calm_transfer (t : Transfer) : (transfer t).Calm ↔ t.unwind? = none := by
  simp [Calm, isLandingPad, unwind?]

/-- A flat op: it has no regions and is no construct. -/
def OpTree.IsFlat (n : OpTree) : Prop := n.regions = [] ∧ n.kind.isStructured = false

/-- Flat code that has nothing to do with exceptions. -/
def OpTree.IsCode (n : OpTree) : Prop := n.IsFlat ∧ n.kind.Calm

theorem OpTree.IsCode.isFlat {n : OpTree} (h : n.IsCode) : n.IsFlat := h.1

variable {h : Head}

variable {rs : List RegionTree}

@[simp] theorem OpTree.isFlat_mk :
    (mk h rs).IsFlat ↔ rs = [] ∧ h.kind.isStructured = false := Iff.rfl

@[simp] theorem OpTree.isFlat_leaf : (leaf h).IsFlat ↔ h.kind.isStructured = false := by
  simp [leaf]

@[simp] theorem OpTree.isCode_mk :
    (mk h rs).IsCode ↔ (rs = [] ∧ h.kind.isStructured = false) ∧ h.kind.Calm := Iff.rfl

@[simp] theorem OpTree.isCode_leaf :
    (leaf h).IsCode ↔ h.kind.isStructured = false ∧ h.kind.Calm := by
  simp [leaf]

@[simp] theorem OpKind.isStructured_instr (i : Instr) : (instr i).isStructured = false := rfl

@[simp] theorem OpKind.isStructured_transfer (t : Transfer) :
    (transfer t).isStructured = false := rfl

/-- Whether the op is the end of a region that is lowered with the construct around it. -/
def OpKind.endsRegion : OpKind → Bool
  | .construct .yield | .construct .condition | .construct .noCondition | .construct .merge => true
  | _ => false

/-- The block is the same but for its end, which has become flat code. -/
def EndChanged (B B' : BlockTree) : Prop :=
  B'.id = B.id ∧ B'.args = B.args ∧ (B' = B ∨ ∃ ops t mids t', B.ops = ops ++ [t] ∧
    B'.ops = ops ++ mids ++ [t'] ∧ t.kind.endsRegion = true ∧ t.regions = [] ∧
      (∀ n ∈ mids, n.IsCode) ∧ t'.IsCode ∧ t'.id = t.id)

section

variable {B B' : BlockTree} {p : OpKind → Bool}

theorem EndChanged.refl (B : BlockTree) : EndChanged B B := ⟨rfl, rfl, .inl rfl⟩

variable {ops : List OpTree}

/-- The end of a block whose ops fit their kinds has no regions. -/
theorem regions_eq_nil_of_end {t : OpTree} (hB : EachOp OpTree.Fits B.ops) (ho : B.ops = ops ++ [t])
    (ht : t.kind.isTerminator = true) : t.regions = [] :=
  (hB t (by simp [ho]) t .here).regions_eq_nil (OpKind.regionSizes_of_isTerminator ht)

theorem EndChanged.of_mapEnd {g : Head → Head} (hB : EachOp OpTree.Fits B.ops)
    (hp : ∀ k, p k = true → k.endsRegion = true)
    (hg : ∀ h, (OpTree.leaf (g h)).IsCode ∧ (g h).id = h.id) : EndChanged B (B.mapEnd p g) := by
  cases hE : B.endWhere p with
  | none =>
    have : B.mapEnd p g = B := by simp [BlockOf.mapEnd, hE]
    rw [this]
    exact .refl B
  | some t =>
    obtain ⟨ht, hpt, ops, ho⟩ := BlockOf.endWhere_eq_some hE
    have hm : B.mapEnd p g = ⟨B.id, B.args, ops ++ [.mk (g t.head) t.regions]⟩ := by
      simp [BlockOf.mapEnd, hE, ho]
    rw [hm]
    have hr : t.regions = [] := regions_eq_nil_of_end hB ho ht
    exact ⟨rfl, rfl, .inr ⟨ops, t, [], .mk (g t.head) t.regions, ho, by simp, hp _ hpt, hr,
      by simp, ⟨⟨hr, (hg _).1.1.2⟩, (hg _).1.2⟩, (hg _).2⟩⟩

theorem endsRegion_of_isYield {k : OpKind} (h : k.isYield = true) : k.endsRegion = true := by
  rw [OpKind.isYield, beq_iff_eq] at h
  rw [h]
  rfl

theorem EndChanged.yieldTo (target : BlockId) (hB : EachOp OpTree.Fits B.ops) :
    EndChanged B (B.yieldTo target) :=
  .of_mapEnd hB (fun _ => endsRegion_of_isYield) fun _ => ⟨by simp, rfl⟩

theorem EndChanged.endTo (target : BlockId) (hB : EachOp OpTree.Fits B.ops)
    (hp : ∀ k, p k = true → k.endsRegion = true) : EndChanged B (B.endTo p target) :=
  .of_mapEnd hB hp fun _ => ⟨by simp, rfl⟩

/-- The end of a block, if it is a yield, passes the exception on. -/
theorem passOn_ops (exit : Lower.CleanupExit) (exception : ValueId)
    (hB : EachOp OpTree.Fits B.ops) :
    B.passOn exit exception = B ∨ ∃ ops t h, B.ops = ops ++ [t] ∧ t.kind.Calm ∧
      B.passOn exit exception = ⟨B.id, B.args, ops ++ [.leaf h]⟩ ∧
        h.kind = .transfer exit.transfer := by
  unfold BlockOf.passOn BlockOf.mapEnd
  cases hE : B.endWhere OpKind.isYield with
  | none => exact .inl rfl
  | some t =>
    obtain ⟨ht, hpt, ops, ho⟩ := BlockOf.endWhere_eq_some hE
    have hr : t.regions = [] := regions_eq_nil_of_end hB ho ht
    rw [OpKind.isYield, beq_iff_eq] at hpt
    refine .inr ⟨ops, t,
      { t.head with kind := .transfer exit.transfer, operands := [exception] }, ho,
      ?_, by simp [ho, hr, OpTree.leaf], rfl⟩
    rw [hpt]
    exact ⟨rfl, rfl⟩

/-- A block whose end has been changed as a relation says that leaves the other ops. -/
theorem EndChanged.of_ended {rel : BlockTree → BlockTree → Prop} (hB : EachOp OpTree.Fits B.ops)
    (h : Ended p rel B B') (hp : ∀ k, p k = true → k.endsRegion = true)
    (hrel : ∀ ops t, B.ops = ops ++ [t] → t.regions = [] → rel B B' →
      ∃ mids t', B'.ops = ops ++ mids ++ [t'] ∧ (∀ n ∈ mids, n.IsCode) ∧ t'.IsCode ∧
        t'.id = t.id) : EndChanged B B' := by
  obtain ⟨hid, hargs, h⟩ := h
  refine ⟨hid, hargs, ?_⟩
  cases hE : B.endWhere p with
  | none =>
    rw [hE] at h
    exact .inl h
  | some t =>
    rw [hE] at h
    obtain ⟨ht, hpt, ops, ho⟩ := BlockOf.endWhere_eq_some hE
    have hr : t.regions = [] := regions_eq_nil_of_end hB ho ht
    obtain ⟨mids, t', ho', hm, ht', hid'⟩ := hrel ops t ho hr h
    exact .inr ⟨ops, t, mids, t', ho, ho', hp _ hpt, hr, hm, ht', hid'⟩

variable {span : Option Span}

variable {k : Nat}

theorem EndsCatches.isCode {ends : List OpTree} (h : EndsCatches span k ends) :
    ∀ n ∈ ends, n.IsCode := by
  intro n hn
  obtain ⟨id, rfl⟩ := h.2 n hn
  simp

variable {m : Nat} {f : Func}

theorem Stores.isCode {code : Int64} {slot : ValueId} (h : Stores m f span code slot ops) :
    ∀ n ∈ ops, n.IsCode := by
  cases h
  simp

variable {slot : Option ValueId}

theorem Zeroes.isCode (h : Zeroes m f span slot ops) : ∀ n ∈ ops, n.IsCode := by
  cases h with
  | absent => simp
  | present h => exact h.isCode

theorem Flag.isCode {cond flag : ValueId} {casts : List OpTree}
    (h : Flag m f span cond flag casts) : ∀ n ∈ casts, n.IsCode := by
  cases h with
  | same => simp
  | cast => simp

variable {Bd : Bindings}

theorem Leads.isCode {d : Destination} {codes : List OpTree} {target : BlockId}
    (h : Leads m f Bd span d codes target) : ∀ n ∈ codes, n.IsCode := by
  cases h with
  | block => simp
  | ret => simp
  | final _ hs => exact hs.isCode

theorem EndChanged.of_completes {exit : BlockId} (hB : EachOp OpTree.Fits B.ops)
    (h : Ended OpKind.isYield (Completes m k slot exit f) B B') : EndChanged B B' := by
  refine .of_ended hB h (fun _ => endsRegion_of_isYield) ?_
  rintro ops t ho hr ⟨b, args, ops', t', ends, codes, rfl, hends, hcodes, rfl⟩
  obtain ⟨rfl, ht⟩ := List.append_inj' ho rfl
  cases ht
  refine ⟨ends ++ codes, .mk { t.head with kind := .transfer (.br exit), operands := [] } t.regions,
    by simp, ?_, by simp [hr], rfl⟩
  simp only [List.mem_append]
  rintro n (hn | hn)
  · exact hends.isCode n hn
  · exact hcodes.isCode n hn

variable {next : BlockId}

theorem EndChanged.of_loopTested {c : Construct} {bodyTo : BlockId} (hB : EachOp OpTree.Fits B.ops)
    (h : Ended c.isTest (LoopTested m bodyTo next f) B B') : EndChanged B B' := by
  refine .of_ended hB h ?_ ?_
  · intro k hk
    cases c <;> simp only [Construct.isTest, Bool.or_eq_true, beq_iff_eq] at hk <;>
      first
        | (rw [hk]; rfl)
        | (obtain rfl | rfl := hk <;> rfl)
  · rintro ops t ho hr ⟨b, args, ops', t', rfl, h⟩
    obtain ⟨rfl, ht⟩ := List.append_inj' ho rfl
    cases ht
    split at h
    · rw [h]
      exact ⟨[], .mk { t.head with kind := .transfer (.br bodyTo), operands := [] } t.regions,
        by simp, by simp, by simp [hr], rfl⟩
    · obtain ⟨b₁, args₁, ops₁, t₁, cond, fwd, flag, casts, hB₁, -, hflag, rfl⟩ := h
      rw [BlockOf.mk.injEq] at hB₁
      obtain ⟨rfl, rfl, ho₁⟩ := hB₁
      obtain ⟨rfl, ht⟩ := List.append_inj' ho₁ rfl
      cases ht
      exact ⟨casts, .mk { t.head with
        kind := .transfer (.condBr bodyTo next fwd.length)
        operands := flag :: fwd ++ fwd } t.regions, by simp, hflag.isCode, by simp [hr], rfl⟩

theorem EndChanged.of_finalEnd {cases : List (Int64 × Destination)} {made : List BlockTree}
    (hB : EachOp OpTree.Fits B.ops) (h : FinalEnd m f Bd next cases slot B B' made) :
    EndChanged B B' := by
  cases h with
  | abrupt => exact .refl B
  | straight => exact .endTo next hB fun _ => endsRegion_of_isYield
  | @routed slot b args ops t i v o out made ht hn hv hc =>
    have hterm : t.kind.isTerminator = true := by
      rw [OpKind.isYield, beq_iff_eq] at ht
      rw [ht]
      rfl
    have hr : t.regions = [] := regions_eq_nil_of_end hB rfl hterm
    exact ⟨rfl, rfl, .inr ⟨ops, t, [.leaf ⟨i, .instr .load, [slot], [v], t.head.span⟩],
      .mk { t.head with kind := .transfer (.switchInt next out), operands := [v] } t.regions, rfl,
      by simp, endsRegion_of_isYield ht, hr, by simp, by simp [hr], rfl⟩⟩

end

/-! ## Blocks of flat code -/

/-- Blocks that hold nothing but flat code. -/
def AllCode (Bs : List BlockTree) : Prop := ∀ B ∈ Bs, ∀ n ∈ B.ops, n.IsCode

section

variable {Bs L R : List BlockTree} {p : Trail} {e : OpTree} {ops : List OpTree}

@[simp] theorem allCode_nil : AllCode [] := by simp [AllCode]

variable {B : BlockTree}

@[simp] theorem allCode_cons :
    AllCode (B :: Bs) ↔ (∀ n ∈ B.ops, n.IsCode) ∧ AllCode Bs := by simp [AllCode]

@[simp] theorem allCode_append : AllCode (L ++ R) ↔ AllCode L ∧ AllCode R := by
  simp [AllCode, or_imp, forall_and]

theorem OpTree.At.isFlat (h : ∀ n ∈ ops, n.IsFlat) (he : e.At ops p) : p = [] ∧ e.IsFlat := by
  obtain ⟨rfl, he⟩ := OpTree.at_of_bare (fun n hn => (h n hn).1) he
  exact ⟨rfl, h e he⟩

theorem OpTree.At.isCode (h : ∀ n ∈ ops, n.IsCode) (he : e.At ops p) : p = [] ∧ e.IsCode := by
  obtain ⟨rfl, he⟩ := OpTree.at_of_bare (fun n hn => (h n hn).isFlat.1) he
  exact ⟨rfl, h e he⟩

theorem Path.isCode (h : AllCode Bs) (he : Path Bs p e) : p = [] ∧ e.IsCode := by
  obtain ⟨B, hB, he⟩ := he
  exact he.isCode (h B hB)

variable {blk : BlockId}

theorem EntryCode.isCode {mid : List OpTree} (hc : EntryCode h blk mid B) :
    (∀ n ∈ mid, n.IsCode) ∧ AllCode [B] := by
  cases hc <;> simp

variable {f : Func}

theorem CatchCode.isFlat {f' : Func} {Bc : BlockTree} {type : Option (Ty × TypeToken)}
    {cleanup outer landing : Option BlockId} {payload : Option ValueId} {pads : List BlockTree}
    (h : CatchCode f f' Bc type cleanup outer landing payload pads) :
    ∀ B ∈ pads, ∀ n ∈ B.ops, n.IsFlat := by
  cases h with
  | absent => simp
  | present _ hl => cases hl <;> simp

variable {m : Nat} {Bd : Bindings} {made : List BlockTree}

theorem Reached.allCode {d : Destination} (h : Reached m f Bd d blk made) : AllCode made := by
  cases h with
  | block => simp
  | ret => simp
  | final _ hs =>
    simp only [allCode_cons, List.mem_append, List.mem_singleton, allCode_nil, and_true]
    rintro n (hn | rfl)
    · exact hs.isCode n hn
    · simp

variable {cases : List (Int64 × Destination)}

theorem RouteCases.allCode {out : List (Int64 × BlockId)} (h : RouteCases m f Bd cases out made) :
    AllCode made := by
  induction h with
  | nil => simp
  | cons h _ ih => simp [h.allCode, ih]

variable {slot : Option ValueId}

variable {next : BlockId}

theorem FinalEnd.allCode {F F' : BlockTree} (h : FinalEnd m f Bd next cases slot F F' made) :
    AllCode made := by
  cases h with
  | abrupt => simp
  | straight => simp
  | routed _ _ _ hc => exact hc.allCode

variable {Bf : BlockTree}

theorem FinalCode.allCode {Fs : List BlockTree} (h : FinalCode m f Bd next cases Bf slot Fs made) :
    AllCode made := by
  cases h with
  | absent => simp
  | present _ hF => exact hF.allCode

theorem RouteCode.isCode {op : OpId} {escapes : List OpId} {Bd' : Bindings} {slotOps : List OpTree}
    (h : RouteCode m op Bf escapes Bd slot Bd' slotOps) : ∀ n ∈ slotOps, n.IsCode := by
  cases h <;> simp

theorem OpTree.IsFieldOp.isCode {n : OpTree} (h : n.IsFieldOp) : n.IsCode := by
  obtain ⟨id, i, operands, results, span, rfl, rfl | rfl | ⟨index, rfl⟩⟩ := h <;> simp

end

/-! ## Origins -/

/-- Where an op comes from that is found on a path after a construct `x` has been lowered: it is
flat code, or it was in the rest of the body, or in a region of `x`, or it is a copy of what was in
the finally, if that is copied under the names `ρ`. -/
inductive ComesFrom (σ : ValueId → ValueId) (ρ : Option Renaming) (rest : List BlockTree)
    (x : OpTree) :
    Trail → OpTree → Prop
  | kept {p : Trail} {e : OpTree} (h : Path rest p e) :
      ComesFrom σ ρ rest x (p.rename (.uses σ)) (e.rename (.uses σ))
  | opened {i : Nat} {r : RegionTree} {p : Trail} {e : OpTree} (hr : x.regions[i]? = some r)
      (h : Path r.blocks p e) : ComesFrom σ ρ rest x (p.rename (.uses σ)) (e.rename (.uses σ))
  | copied {τ : Renaming} {r : RegionTree} {p : Trail} {e : OpTree} (hτ : ρ = some τ)
      (hr : x.regions[2]? = some r) (h : Path r.blocks p e) :
      ComesFrom σ ρ rest x (p.rename τ) (e.rename τ)
  | made {e : OpTree} (h : e.IsFlat) : ComesFrom σ ρ rest x [] e

section

variable {σ : ValueId → ValueId} {ρ : Option Renaming} {rest : List BlockTree} {x : OpTree}
  {p : Trail} {e : OpTree}

theorem Trail.rename_uses_id (p : Trail) : p.rename (.uses fun v => v) = p := by
  simp [Trail.rename, OpTree.rename_uses_id]

/-- A path in a block whose end has changed. -/
theorem EndChanged.path {B B' : BlockTree} (h : EndChanged B B') (he : e.At B'.ops p) :
    e.At B.ops p ∨ p = [] ∧ e.IsCode := by
  obtain ⟨-, -, rfl | ⟨ops, t, mids, t', ho, ho', -, -, hm, ht', -⟩⟩ := h
  · exact .inl he
  · rw [ho', OpTree.at_append, OpTree.at_append] at he
    obtain (he | he) | he := he
    · rw [ho, OpTree.at_append]
      exact .inl (.inl he)
    · exact .inr (he.isCode hm)
    · exact .inr (he.isCode (by simpa using ht'))

theorem path_of_endChanged {Bs Bs' : List BlockTree} (h : List.Forall₂ EndChanged Bs Bs')
    (he : Path Bs' p e) : Path Bs p e ∨ p = [] ∧ e.IsCode := by
  induction h with
  | nil => simp at he
  | cons hB _ ih =>
    rw [path_cons_left] at he ⊢
    obtain he | he := he
    · exact (hB.path he).imp .inl id
    · exact (ih he).imp .inr id

variable {ops : List OpTree}

theorem path_atStart {T : List BlockTree} (he : Path (atStart ops T) p e) :
    e.At ops p ∨ Path T p e := by
  cases T with
  | nil => simp [atStart] at he
  | cons B T =>
    rw [atStart, path_cons_left, OpTree.at_append] at he
    rw [path_cons_left]
    obtain (he | he) | he := he
    · exact .inl he
    · exact .inr (.inl he)
    · exact .inr (.inr he)

theorem ComesFrom.kept_id (h : Path rest p e) : ComesFrom (fun v => v) ρ rest x p e := by
  have := ComesFrom.kept (σ := fun v => v) (ρ := ρ) (x := x) h
  rwa [Trail.rename_uses_id, OpTree.rename_uses_id] at this

theorem ComesFrom.opened_id {i : Nat} {r : RegionTree} (hr : x.regions[i]? = some r)
    (h : Path r.blocks p e) : ComesFrom (fun v => v) ρ rest x p e := by
  have : ComesFrom (fun v => v) ρ rest x _ _ := .opened hr h
  rwa [Trail.rename_uses_id, OpTree.rename_uses_id] at this

theorem ComesFrom.of_isFlat (h : p = [] ∧ e.IsFlat) : ComesFrom σ ρ rest x p e := by
  obtain ⟨rfl, h⟩ := h
  exact .made h

theorem ComesFrom.of_isCode (h : p = [] ∧ e.IsCode) : ComesFrom σ ρ rest x p e :=
  .of_isFlat ⟨h.1, h.2.isFlat⟩

/-! ## The three shapes of a round -/

variable {L R : List BlockTree} {b : BlockId} {args : List ValueId} {pre post : List OpTree}

/-- A construct without regions is replaced by flat code. -/
theorem path_placed {mid : List OpTree} {cut : Option BlockId} (hm : ∀ n ∈ mid, n.IsFlat)
    (he : Path (placed L R b args pre mid post cut) p e) :
    Path (L ++ ⟨b, args, pre ++ post⟩ :: R) p e ∨ p = [] ∧ e.IsFlat := by
  have hmid : e.At mid p → p = [] ∧ e.IsFlat := fun he => he.isFlat hm
  cases cut <;> simp only [placed, path_append, path_cons_left, OpTree.at_append] at he ⊢ <;> tauto

variable {next : BlockId}

/-- The regions of a construct are laid out behind it. -/
theorem comesFrom_opened {front : List OpTree} {inner : List BlockTree} {news : List ValueId}
    {casts : List OpTree} (hc : ∀ n ∈ casts, n.IsCode) (hf : ∀ n ∈ front, n.IsCode)
    (hi : List.Forall₂ EndChanged
      ((x.regions.flatMap (·.blocks)).map (BlockOf.rename (.uses σ))) inner)
    (he : Path (opened σ L R b args (pre ++ casts) post front inner next news) p e) :
    ComesFrom σ ρ (L ++ ⟨b, args, pre ++ post⟩ :: R) x p e := by
  have hkept : ∀ {p₀ e₀}, Path (L ++ ⟨b, args, pre ++ post⟩ :: R) p₀ e₀ → p = p₀.rename (.uses σ) →
      e = e₀.rename (.uses σ) → ComesFrom σ ρ (L ++ ⟨b, args, pre ++ post⟩ :: R) x p e := by
    rintro p₀ e₀ h rfl rfl
    exact .kept h
  simp only [opened, path_append, path_cons_left, OpTree.at_append, List.map_append] at he
  obtain he | ((he | he) | he) | he | he | he := he
  · obtain ⟨p₀, e₀, h, hp, he⟩ := path_rename.mp he
    exact hkept (by simp [h]) hp he
  · obtain ⟨p₀, e₀, h, hp, he⟩ := OpTree.at_rename.mp he
    exact hkept (by simp [h]) hp he
  · obtain ⟨p₀, e₀, h, rfl, rfl⟩ := OpTree.at_rename.mp he
    obtain ⟨rfl, ⟨h₁, h₂⟩, -⟩ := h.isCode hc
    refine .made ⟨by simp [h₁], ?_⟩
    simpa using h₂
  · exact .of_isCode (he.isCode hf)
  · obtain he | he := path_of_endChanged hi he
    · obtain ⟨p₀, e₀, ⟨B, hB, h⟩, rfl, rfl⟩ := path_rename.mp he
      obtain ⟨r, hr, hB⟩ := List.mem_flatMap.mp hB
      obtain ⟨i, hi⟩ := List.getElem?_of_mem hr
      exact .opened hi ⟨B, hB, h⟩
    · exact .of_isCode he
  · obtain ⟨p₀, e₀, h, hp, he⟩ := OpTree.at_rename.mp he
    exact hkept (by simp [h]) hp he
  · obtain ⟨p₀, e₀, h, hp, he⟩ := path_rename.mp he
    exact hkept (by simp [h]) hp he

/-- The names under which the finally of a try has been copied, if it has been. -/
inductive CopiedAs (f f' : Func) (Bf : BlockTree) : Option Renaming → List (OpId × OpId) → Prop
  | absent : CopiedAs f f' Bf none []
  | present {m : CloneMap} {τ : Renaming} (h : Clone f f' m [Bf] τ) :
      CopiedAs f f' Bf (some τ) m.ops.entries

theorem EachOp.rename_fits (τ : Renaming) (h : EachOp OpTree.Fits ops) :
    EachOp OpTree.Fits (ops.map (OpTree.rename τ)) :=
  eachOp_rename.mpr fun n hn m hm => (h n hn m hm).rename τ

variable {Bf : BlockTree}

variable {f : Func}

theorem FinalCode.path {m : Nat} {Bd : Bindings} {cases : List (Int64 × Destination)}
    {slot : Option ValueId} {Fs made : List BlockTree} (hB : EachOp OpTree.Fits Bf.ops)
    (h : FinalCode m f Bd next cases Bf slot Fs made) (he : Path Fs p e) :
    Path [Bf] p e ∨ p = [] ∧ e.IsCode := by
  cases h with
  | absent => simp at he
  | present _ hF => exact path_of_endChanged (.cons (.of_finalEnd hB hF) .nil) he

theorem CleanupCode.path {f' : Func} {exit : Lower.CleanupExit} {cleanup : Option BlockId}
    {K : List BlockTree} {copies : List (OpId × OpId)} (hB : EachOp OpTree.Fits Bf.ops)
    (h : CleanupCode f f' exit Bf cleanup K copies) :
    ∃ ρ, CopiedAs f f' Bf ρ copies ∧ ∀ p e, Path K p e → p = [] ∧ e.IsFlat ∨
      ∃ τ p₀ e₀, ρ = some τ ∧ Path [Bf] p₀ e₀ ∧ p = p₀.rename τ ∧ e = e₀.rename τ := by
  cases h with
  | absent => exact ⟨none, .absent, by simp⟩
  | @present m τ pad i j k exception payload _ hc _ _ =>
    refine ⟨some τ, .present hc, fun p e he => ?_⟩
    rw [path_cons_left] at he
    obtain he | he := he
    · exact .inl (he.isFlat (by cases h : exit.isCleanup <;> simp [cleanupPad, h]))
    · have hcopy : e.At (Bf.rename τ).ops p → ∃ τ' p₀ e₀, some τ = some τ' ∧ Path [Bf] p₀ e₀ ∧
          p = p₀.rename τ' ∧ e = e₀.rename τ' := fun he => by
        have he : Path ([Bf].map (BlockOf.rename τ)) p e := by simpa using he
        obtain ⟨p₀, e₀, h₀, rfl, rfl⟩ := path_rename.mp he
        exact ⟨τ, p₀, e₀, rfl, h₀, rfl, rfl⟩
      have he : e.At ((Bf.rename τ).passOn exit exception).ops p := by simpa using he
      obtain hend | ⟨ops, t, h, ho, -, hend, hk⟩ := passOn_ops (B := Bf.rename τ) exit exception
        (hB.rename_fits τ)
      · exact .inr (hcopy (hend ▸ he))
      · rw [hend, OpTree.at_append] at he
        obtain he | he := he
        · exact .inr (hcopy (by rw [ho, OpTree.at_append]; exact .inl he))
        · exact .inl (he.isFlat (by simp [hk]))

section

variable {types : TypeTable} {strategy : UnwindStrategy} {s s' : LowerState} {h : Head}
  {Bb Bc Bf : BlockTree} {c : TryCode} (hl : LoweredTry types strategy s s' h Bb Bc Bf c)

include hl

theorem LoweredTry.body_endChanged (hB : EachOp OpTree.Fits Bb.ops) : EndChanged Bb c.body :=
  .of_completes hB hl.body

theorem LoweredTry.catches_endChanged (hB : EachOp OpTree.Fits Bc.ops) :
    List.Forall₂ EndChanged (bif Bc.holdsOps then [Bc] else []) c.catches := by
  have hfit : ∀ B ∈ (bif Bc.holdsOps then [Bc] else []), EachOp OpTree.Fits B.ops := by
    intro B hBc
    have : B = Bc := by cases h : Bc.holdsOps <;> simp_all
    exact this ▸ hB
  exact ((List.forall₂_and_left _ _).mpr ⟨hfit, hl.catches⟩).imp fun B B' h => .of_completes h.1 h.2

end

/-- The parts of a try are laid out behind it. -/
theorem comesFrom_try {types : TypeTable} {strategy : UnwindStrategy} {s s' : LowerState}
    {Bb Bc : BlockTree} {c : TryCode} {q₁ q₂ q₃ : RegionId}
    (hl : LoweredTry types strategy s s' h Bb Bc Bf c)
    (hB : ∀ B ∈ [Bb, Bc, Bf], EachOp OpTree.Fits B.ops) :
    ∃ ρ, CopiedAs s.func s'.func Bf ρ c.copies ∧ ∀ p e, Path (c.tree L R b args pre post) p e →
      ComesFrom (fun v => v) ρ (L ++ ⟨b, args, pre ++ post⟩ :: R)
        (.mk h [⟨q₁, [Bb]⟩, ⟨q₂, [Bc]⟩, ⟨q₃, [Bf]⟩]) p e := by
  have hbody := hl.body_endChanged (hB Bb (by simp))
  have hcatches := hl.catches_endChanged (hB Bc (by simp))
  obtain ⟨ρ, hρ, hclone⟩ := hl.clone.path (hB Bf (by simp))
  refine ⟨ρ, hρ, fun p e he => ?_⟩
  rw [TryCode.tree] at he
  obtain he | he := path_atStart he
  · exact .of_isCode (he.isCode hl.route.isCode)
  have hkept : Path (L ++ ⟨b, args, pre ++ post⟩ :: R) p e → ComesFrom (fun v => v) ρ
      (L ++ ⟨b, args, pre ++ post⟩ :: R) (.mk h [⟨q₁, [Bb]⟩, ⟨q₂, [Bc]⟩, ⟨q₃, [Bf]⟩]) p e :=
      .kept_id
  simp only [path_append, path_cons_left, OpTree.at_append] at he hkept
  obtain he | (he | he) | (he | ((((he | he) | he) | he) | he)) | he | he := he
  · exact hkept (.inl he)
  · exact hkept (.inr (.inl (.inl he)))
  · exact .of_isCode (he.isCode (by simp))
  · obtain he | he := hbody.path he
    · exact .opened_id (i := 0) rfl (by simpa using he)
    · exact .of_isCode he
  · obtain ⟨B, hB, he⟩ := he
    exact .of_isFlat (he.isFlat (hl.pads.isFlat B hB))
  · obtain he | he := path_of_endChanged hcatches he
    · exact .opened_id (i := 1) rfl (he.mono (by cases Bc.holdsOps <;> simp))
    · exact .of_isCode he
  · obtain he | he := hl.finals.path (hB Bf (by simp)) he
    · exact .opened_id (i := 2) rfl he
    · exact .of_isCode he
  · obtain he | ⟨τ, p₀, e₀, hτ, h₀, rfl, rfl⟩ := hclone p e he
    · exact .of_isFlat he
    · exact .copied hτ rfl h₀
  · exact .of_isCode (he.isCode hl.finals.allCode)
  · exact hkept (.inr (.inl (.inr he)))
  · exact hkept (.inr (.inr he))

/-- The tables that say something about ops are the same. -/
structure Bindings.SameTables (B B' : Bindings) : Prop where
  jumps : B'.jumps = B.jumps
  unwinds : B'.unwinds = B.unwinds
  catchDepths : B'.catchDepths = B.catchDepths
  parents : B'.parents = B.parents
  padsOf : B'.padsOf = B.padsOf
  payloads : B'.payloads = B.payloads
  routes : B'.routes = B.routes

theorem Bindings.SameTables.of_eq {B B' : Bindings} (h : B' = B) : B.SameTables B' := by
  subst h
  exact ⟨rfl, rfl, rfl, rfl, rfl, rfl, rfl⟩

/-- What a round does, by the shape of the construct `x` that is lowered; `rest` is the body without
it. -/
inductive Reshaped (s s' : LowerState) (rest : List BlockTree) (x : OpTree) (T' : List BlockTree) :
    Prop
  | placed (hx : x.regions = []) (hb : s.bindings.SameTables s'.bindings)
      (ho : ∀ p e, Path T' p e → ComesFrom (fun v => v) none rest x p e) :
      Reshaped s s' rest x T'
  | opened {c : Construct} {σ : ValueId → ValueId} {news : List ValueId} {t : JumpTargets}
      (hk : x.kind = .construct c) (hc : c ≠ .tryCatch)
      (hσ : NewNames s.func s'.func x.head.results σ news)
      (hb : s'.bindings =
        s.bindings.bindJumps t (blockJumps c {} (x.regions.flatMap (·.blocks))))
      (ho : ∀ p e, Path T' p e → ComesFrom σ none rest x p e) : Reshaped s s' rest x T'
  | tried {types : TypeTable} {strategy : UnwindStrategy} {h : Head} {Bb Bc Bf : BlockTree}
      {q₁ q₂ q₃ : RegionId} {c : TryCode} {ρ : Option Renaming}
      (hx : x = .mk h [⟨q₁, [Bb]⟩, ⟨q₂, [Bc]⟩, ⟨q₃, [Bf]⟩]) (hk : h.kind = .construct .tryCatch)
      (hl : LoweredTry types strategy s s' h Bb Bc Bf c)
      (hρ : CopiedAs s.func s'.func Bf ρ c.copies)
      (ho : ∀ p e, Path T' p e → ComesFrom (fun v => v) ρ rest x p e) : Reshaped s s' rest x T'

section

variable {s s' : LowerState} {T' : List BlockTree} {h : Head}

theorem reshaped_placed {mid : List OpTree} {cut : Option BlockId}
    (hb : s.bindings.SameTables s'.bindings) (hm : ∀ n ∈ mid, n.IsFlat) :
    Reshaped s s' (L ++ ⟨b, args, pre ++ post⟩ :: R) (.leaf h)
      (placed L R b args pre mid post cut) := by
  refine .placed rfl hb fun p e he => ?_
  obtain he | he := path_placed hm he
  · exact .kept_id he
  · exact .of_isFlat he

theorem reshaped_left {dest : Destination} (more : List OpTree) (hm : ∀ n ∈ more, n.IsCode)
    (hl : Left s s' L R b args (pre ++ more) post h dest T') :
    Reshaped s s' (L ++ ⟨b, args, pre ++ post⟩ :: R) (.leaf h) T' := by
  obtain ⟨ends, codes, target, cut, hends, hleads, -, rfl⟩ := hl.result
  have hmid : ∀ n ∈ more ++ (ends ++ codes ++
      [.leaf { h with kind := .transfer (.br target), operands := [] }]), n.IsCode := by
    simp only [List.mem_append, List.mem_singleton]
    rintro n (hn | (hn | hn) | rfl)
    · exact hm n hn
    · exact hends.isCode n hn
    · exact hleads.isCode n hn
    · simp
  have hT : placed L R b args (pre ++ more) (ends ++ codes ++
      [.leaf { h with kind := .transfer (.br target), operands := [] }]) post cut =
        placed L R b args pre (more ++ (ends ++ codes ++
          [.leaf { h with kind := .transfer (.br target), operands := [] }])) post cut := by
    cases cut <;> simp [placed]
  rw [hT]
  exact reshaped_placed (.of_eq hl.edited.bindings) fun n hn => (hmid n hn).isFlat

variable {Bs : List BlockTree}

theorem forall₂_yieldTo (target : BlockId) (hB : Everywhere OpTree.Fits Bs) :
    List.Forall₂ EndChanged (Bs.map (BlockOf.rename (.uses σ)))
      (Bs.map fun B => (B.rename (.uses σ)).yieldTo target) := by
  rw [List.forall₂_map_left_iff, List.forall₂_map_right_iff, List.forall₂_same]
  exact fun B hB' => .yieldTo target ((hB.eachOp hB').rename_fits (.uses σ))

variable {c : Construct}

variable {C D I : List BlockTree}

theorem forall₂_loopBlocks {rel : BlockTree → BlockTree → Prop} {C' D' I' : List BlockTree}
    (hC : List.Forall₂ rel C C') (hD : List.Forall₂ rel D D') (hI : List.Forall₂ rel I I') :
    List.Forall₂ rel (loopBlocks c C D I) (loopBlocks c C' D' I') := by
  unfold loopBlocks
  split
  · exact List.rel_append hD hC
  · exact List.rel_append (List.rel_append hC hD) hI

theorem map_loopBlocks (g : BlockTree → BlockTree) (C D I : List BlockTree) :
    (loopBlocks c C D I).map g = loopBlocks c (C.map g) (D.map g) (I.map g) := by
  unfold loopBlocks
  split <;> simp

/-- The first block of a region. -/
def OpTree.firstBlock? (n : OpTree) (i : Nat) : Option BlockTree :=
  n.regions[i]?.bind (·.blocks.head?)

/-- Where a construct goes on with its next round: with its condition, or with its increment if it
has one; a labelled block starts again. -/
def OpTree.continueBlock? (n : OpTree) : Option BlockTree :=
  match n.kind with
  | .construct (.whileLoop _) | .construct (.labeled _) => n.firstBlock? 0
  | .construct (.doWhile _) => n.firstBlock? 1
  | .construct (.forLoop _) => (n.firstBlock? 2).or (n.firstBlock? 0)
  | _ => none

/-- A construct other than a try is laid out: the blocks of its regions, with other ends, come
behind it, and the jumps to it are bound. -/
def Opens (s s' : LowerState) (L R : List BlockTree) (b : BlockId) (args : List ValueId)
    (pre post : List OpTree) (x : OpTree) (T' : List BlockTree) : Prop :=
  ∃ (c : Construct) (σ : ValueId → ValueId) (casts front : List OpTree)
    (inner : List BlockTree) (next : BlockId) (news : List ValueId),
    x.kind = .construct c ∧ c ≠ .tryCatch ∧ NewNames s.func s'.func x.head.results σ news ∧
      s'.bindings = s.bindings.bindJumps ⟨next, x.continueBlock?.map (·.id)⟩
        (blockJumps c {} (x.regions.flatMap (·.blocks))) ∧
      JumpsFit c x.head.results (x.continueBlock?.map (·.args)) (x.regions.flatMap (·.blocks)) ∧
      (∀ n ∈ casts, n.IsCode) ∧ (∀ n ∈ front, n.IsCode) ∧
      List.Forall₂ EndChanged
        ((x.regions.flatMap (·.blocks)).map (BlockOf.rename (.uses σ))) inner ∧
      T' = opened σ L R b args (pre ++ casts) post front inner next news

theorem Opens.reshaped (h : Opens s s' L R b args pre post x T') :
    Reshaped s s' (L ++ ⟨b, args, pre ++ post⟩ :: R) x T' := by
  obtain ⟨c, σ, casts, front, inner, next, news, hk, hc, hσ, hb, -, hcasts, hfront, hi, rfl⟩ := h
  exact .opened hk hc hσ hb fun p e he => comesFrom_opened hcasts hfront hi he

/-- The regions of a loop are laid out in their order. -/
theorem LoweredLoop.opens {rs : List RegionTree}
    (hl : LoweredLoop s s' c L R b args pre post h C D I T') (hk : h.kind = .construct c)
    (hc : c ≠ .tryCatch) (hrs : rs.flatMap (·.blocks) = loopBlocks c C D I)
    (hcont : (OpTree.mk h rs).continueBlock? = (I ++ C).head?)
    (hx : ∀ Bs ∈ [C, D, I], Everywhere OpTree.Fits Bs) :
    Opens s s' L R b args pre post (.mk h rs) T' := by
  obtain ⟨σ, next, news, id, C', condTo, bodyTo, hσ, hcond, -, hC, hb, rfl⟩ := hl.result
  have hC' : List.Forall₂ EndChanged (C.map (BlockOf.rename (.uses σ))) C' := by
    refine ((List.forall₂_and_left _ _).mpr ⟨?_, hC⟩).imp fun B B' h => .of_loopTested h.1 h.2
    intro B hB
    obtain ⟨B₀, hB₀, rfl⟩ := List.mem_map.mp hB
    exact ((hx C (by simp)).eachOp hB₀).rename_fits (.uses σ)
  refine ⟨c, σ, [], _, _, next, news, hk, hc, hσ, ?_, ?_, by simp, ?_, ?_,
    by rw [List.append_nil]⟩
  · rw [hcont, ← List.head?_map, head?_ids_append hcond, OpTree.regions_mk, hrs]
    exact hb
  · rw [hcont, OpTree.regions_mk, hrs]
    exact hl.jumps
  · simp
  · rw [OpTree.regions_mk, hrs, map_loopBlocks]
    exact forall₂_loopBlocks hC' (forall₂_yieldTo _ (hx D (by simp)))
      (forall₂_yieldTo _ (hx I (by simp)))

theorem LoweredMerging.opens {q : RegionId} (hl : LoweredMerging s s' c L R b args pre post h Bs T')
    (hk : h.kind = .construct c) (hc : c ≠ .tryCatch)
    (hcont : (OpTree.mk h [⟨q, Bs⟩]).continueBlock? = (mergingContinue c Bs).head?)
    (hx : Everywhere OpTree.Fits Bs) : Opens s s' L R b args pre post (.mk h [⟨q, Bs⟩]) T' := by
  obtain ⟨σ, next, news, id, hσ, hb, rfl⟩ := hl.result
  refine ⟨c, σ, [], _, _, next, news, hk, hc, hσ, ?_, ?_, by simp, ?_, ?_,
    by rw [List.append_nil]⟩
  · rw [hcont, ← List.head?_map]
    simpa using hb
  · rw [hcont]
    simpa using hl.jumps
  · simp
  · simp only [OpTree.regions_mk, List.flatMap_cons, List.flatMap_nil, List.append_nil]
    rw [List.forall₂_map_left_iff, List.forall₂_map_right_iff, List.forall₂_same]
    refine fun B hB => .endTo next ((hx.eachOp hB).rename_fits (.uses σ)) fun k hk => ?_
    rw [beq_iff_eq] at hk
    rw [hk]
    rfl

theorem LoweredBranch.opens {B₁ B₂ : List BlockTree} {q₁ q₂ : RegionId}
    (hl : LoweredBranch s s' L R b args pre post h B₁ B₂ T') (hk : h.kind = .construct .branch)
    (hx : Everywhere OpTree.Fits (B₁ ++ B₂)) :
    Opens s s' L R b args pre post (.mk h [⟨q₁, B₁⟩, ⟨q₂, B₂⟩]) T' := by
  obtain ⟨cond, rest, flag, casts, σ, next, news, id, -, hflag, hσ, rfl⟩ := hl.result
  refine ⟨.branch, σ, casts, _, _, next, news, hk, by simp, hσ, ?_, ?_, hflag.isCode, ?_, ?_, rfl⟩
  · rw [blockJumps_branch]
    exact hl.edited.bindings
  · simp [JumpsFit, blockJumps_branch]
  · simp
  · simp only [OpTree.regions_mk, List.flatMap_cons, List.flatMap_nil, List.append_nil]
    exact forall₂_yieldTo next hx

theorem LoweredCall.reshaped {callee : Callee} {plain : Instr}
    (hl : LoweredCall s s' callee plain L R b args pre post h T') :
    Reshaped s s' (L ++ ⟨b, args, pre ++ post⟩ :: R) (.leaf h) T' := by
  have hr := hl.result
  cases hu : s.bindings.unwind? h.id with
  | none =>
    rw [hu] at hr
    rw [hr]
    exact reshaped_placed (.of_eq hl.bindings) (by simp)
  | some unwind =>
    rw [hu] at hr
    obtain ⟨normal, rfl⟩ := hr
    exact reshaped_placed (.of_eq hl.bindings) (by simp)

variable {types : TypeTable} {o : LowerOptions}

/-- A construct with regions is laid out, if it is no try. -/
theorem Lowered.opens (hl : Lowered types o s s' L R b args pre post x T')
    (hx : ∀ m : OpTree, m.Within x → m.Fits) (hr : x.regions ≠ [])
    (htry : x.kind ≠ .construct .tryCatch) : Opens s s' L R b args pre post x T' := by
  have hfits : ∀ r ∈ x.regions, Everywhere OpTree.Fits r.blocks := by
    cases x
    exact (within_mk_iff.mp hx).2
  cases hl with
  | branch hk hl =>
    simp only [OpTree.regions_mk, List.forall_mem_cons] at hfits
    exact hl.opens hk (everywhere_append.mpr ⟨hfits.1, hfits.2.1⟩)
  | whileLoop hk hl =>
    simp only [OpTree.regions_mk, List.forall_mem_cons] at hfits
    refine hl.opens hk (by simp) (by simp [loopBlocks]) ?_ (by simp [hfits.1, hfits.2.1])
    simp [OpTree.continueBlock?, OpTree.firstBlock?, hk]
  | doWhile hk hl =>
    simp only [OpTree.regions_mk, List.forall_mem_cons] at hfits
    refine hl.opens hk (by simp) (by simp [loopBlocks]) ?_ (by simp [hfits.1, hfits.2.1])
    simp [OpTree.continueBlock?, OpTree.firstBlock?, hk]
  | forLoop hk hl =>
    simp only [OpTree.regions_mk, List.forall_mem_cons] at hfits
    refine hl.opens hk (by simp) (by simp [loopBlocks]) ?_
      (by simp [hfits.1, hfits.2.1, hfits.2.2.1])
    simp [OpTree.continueBlock?, OpTree.firstBlock?, hk, List.head?_append]
  | switch hk hl =>
    simp only [OpTree.regions_mk, List.forall_mem_cons] at hfits
    refine hl.opens hk (by simp) ?_ hfits.1
    simp [OpTree.continueBlock?, mergingContinue, hk]
  | labeled hk hl =>
    simp only [OpTree.regions_mk, List.forall_mem_cons] at hfits
    refine hl.opens hk (by simp) ?_ hfits.1
    simp [OpTree.continueBlock?, OpTree.firstBlock?, mergingContinue, hk]
  | tryCatch hk => exact absurd hk htry
  | _ => exact absurd rfl hr

/-- Every round has one of the three shapes. -/
theorem Lowered.reshaped (hl : Lowered types o s s' L R b args pre post x T')
    (hx : ∀ m : OpTree, m.Within x → m.Fits) :
    Reshaped s s' (L ++ ⟨b, args, pre ++ post⟩ :: R) x T' := by
  have hopens := hl.opens hx
  cases hl with
  | entry hk hl =>
    obtain ⟨blk, mid, B, hcode, hb, rfl⟩ := hl.result
    refine .placed rfl ?_ fun p e he => ?_
    · rw [hb]
      exact ⟨rfl, rfl, rfl, rfl, rfl, rfl, rfl⟩
    · rw [path_append] at he
      obtain he | he := he
      · obtain he | he := path_placed (fun n hn => (hcode.isCode.1 n hn).isFlat) he
        · exact .kept_id he
        · exact .of_isFlat he
      · exact .of_isCode (he.isCode hcode.isCode.2)
  | exit hk ht he => exact reshaped_placed (.of_eq he.bindings) (by simp)
  | ret hk hl => exact reshaped_left [] (by simp) (by simpa using hl)
  | retVal hk ho hl => exact reshaped_left _ (by simp) hl
  | yieldVal hk hl =>
    obtain ⟨id, value, slot, target, cut, -, -, -, rfl⟩ := hl.result
    exact reshaped_placed (.of_eq hl.edited.bindings) (by simp)
  | jump hk hd hl => exact reshaped_left [] (by simp) (by simpa using hl)
  | branch hk => exact (hopens (by simp) (by simp [hk])).reshaped
  | whileLoop hk => exact (hopens (by simp) (by simp [hk])).reshaped
  | doWhile hk => exact (hopens (by simp) (by simp [hk])).reshaped
  | forLoop hk => exact (hopens (by simp) (by simp [hk])).reshaped
  | switch hk => exact (hopens (by simp) (by simp [hk])).reshaped
  | labeled hk => exact (hopens (by simp) (by simp [hk])).reshaped
  | tryCatch hk hl =>
    have hx := (within_mk_iff.mp hx).2
    simp only [List.forall_mem_cons, everywhere_cons] at hx
    obtain ⟨ρ, hρ, ho⟩ := comesFrom_try hl (by simp [hx.1.1, hx.2.1.1, hx.2.2.1.1])
    exact .tried rfl hk hl hρ ho
  | catchMark hk hp ho he => exact reshaped_placed (.of_eq he.bindings) (by simp)
  | throw hk hc he => exact reshaped_placed (.of_eq he.bindings) (by simp)
  | call hk hl => exact hl.reshaped
  | callIndirect hk hl => exact hl.reshaped
  | stateLabel hk hl =>
    obtain ⟨resume, hb, rfl⟩ := hl.result
    refine reshaped_placed ?_ (by simp)
    rw [hb]
    exact ⟨rfl, rfl, rfl, rfl, rfl, rfl, rfl⟩
  | capture hk hl =>
    obtain ⟨inHeap, stores, hstores, rfl⟩ := hl.result
    refine reshaped_placed (.of_eq hl.edited.bindings) ?_
    simp only [List.mem_cons]
    rintro n (rfl | hn)
    · simp
    · exact (hstores n hn).isCode.isFlat

end

end

end Unnest
