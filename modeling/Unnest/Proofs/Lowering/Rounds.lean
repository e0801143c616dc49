import Unnest.Lower.Flatten
import Unnest.Proofs.Building
import Unnest.Proofs.Lowering.Loops
import Unnest.Proofs.Lowering.Try
import Unnest.Proofs.Tree.Everywhere
/-!
# One round

A round of a lowering takes up one construct at the top level. `Lowered` says what it makes of the
tree, with one case for each construct, and `Func.Holds.lowerOp` that it does. What a construct
needs for that is `Construct.Ready`; an op without the regions of its kind is never ready.
-/

namespace Unnest

/-! ## Regions of a kind -/

/-- An op has no regions, or as many as its kind has; each region of a try has one block. -/
def OpTree.Fits (n : OpTree) : Prop :=
  n.regions = [] ∨ n.regions.length = n.kind.regionSizes.length ∧
    (n.kind = .construct .tryCatch → ∀ r ∈ n.regions, ∃ B, r.blocks = [B])

@[simp] theorem OpKind.regionSizes_mapSuccessors (g : BlockId → BlockId) (k : OpKind) :
    (k.mapSuccessors g).regionSizes = k.regionSizes := by
  cases k with
  | construct c => cases c <;> rfl
  | instr _ => rfl
  | transfer _ => rfl

theorem OpKind.eq_tryCatch_of_mapSuccessors {g : BlockId → BlockId} {k : OpKind}
    (h : k.mapSuccessors g = .construct .tryCatch) : k = .construct .tryCatch := by
  cases k with
  | construct c => cases c <;> first | rfl | cases h
  | instr _ => cases h
  | transfer _ => cases h

theorem OpTree.Fits.rename {n : OpTree} (ρ : Renaming) (hn : n.Fits) : (n.rename ρ).Fits := by
  obtain hn | ⟨hn, htry⟩ := hn
  · exact .inl (by simp [hn])
  · rw [OpTree.Fits, regions_rename, kind_rename, OpKind.regionSizes_mapSuccessors, List.length_map]
    refine .inr ⟨hn, fun hk r hr => ?_⟩
    obtain ⟨r₀, hr₀, rfl⟩ := List.mem_map.mp hr
    obtain ⟨B, hB⟩ := htry (OpKind.eq_tryCatch_of_mapSuccessors hk) r₀ hr₀
    exact ⟨B.rename ρ, by simp [hB]⟩

/-- An op whose kind has no regions has none. -/
theorem OpTree.Fits.regions_eq_nil {n : OpTree} (hn : n.Fits) (hk : n.kind.regionSizes = []) :
    n.regions = [] := by
  obtain hn | ⟨hn, -⟩ := hn
  · exact hn
  · rw [hk] at hn
    exact List.length_eq_zero_iff.mp hn

theorem OpKind.regionSizes_of_isTerminator {k : OpKind} (hk : k.isTerminator = true) :
    k.regionSizes = [] := by
  cases k with
  | construct c => cases c <;> first | rfl | cases hk
  | instr _ => rfl
  | transfer _ => rfl

/-- A block that holds nothing but its end has no regions. -/
theorem regions_eq_nil_of_holdsOps {B : BlockTree} (hB : EachOp OpTree.Fits B.ops)
    (hh : B.holdsOps = false) : ∀ n ∈ B.ops, n.regions = [] := by
  intro n hn
  rw [BlockOf.holdsOps, List.any_eq_false] at hh
  have ht : n.kind.isTerminator = true := by simpa using hh n hn
  exact (hB n hn n .here).regions_eq_nil (OpKind.regionSizes_of_isTerminator ht)

/-! ## What is needed -/

/-- What a construct with the given regions needs to be lowered. A dispatch is never lowered in its
turn, and the ends of regions are not lowered by themselves. -/
def Construct.Ready (types : TypeTable) (f : Func) (B : Bindings) (h : Head)
    (rs : List RegionTree) :
    Construct → Prop
  | .entry | .throw | .call _ | .callIndirect | .stateLabel => True
  | .exit => B.returnTo ≠ none
  | .ret => B.Reaches (B.previous h.id)
  | .retVal => (∃ value slot, h.operands = [value, slot]) ∧ B.Reaches (B.previous h.id)
  | .yieldVal => (∃ value slot, h.operands = [value, slot]) ∧ B.returnTo ≠ none
  | .branch => (∃ cond rest, h.operands = cond :: rest ∧ f.value? cond ≠ none) ∧
      ∃ r₁ r₂, rs = [r₁, r₂] ∧ (h.results ≠ [] → r₂.blocks ≠ [])
  | .whileLoop label => ∃ r₁ r₂, rs = [r₁, r₂] ∧
      LoopReady f (.whileLoop label) h r₁.blocks r₂.blocks []
  | .doWhile label => ∃ r₁ r₂, rs = [r₁, r₂] ∧
      LoopReady f (.doWhile label) h r₂.blocks r₁.blocks []
  | .forLoop label => ∃ r₁ r₂ r₃, rs = [r₁, r₂, r₃] ∧
      LoopReady f (.forLoop label) h r₁.blocks r₂.blocks r₃.blocks
  | .switch label => ∃ r, rs = [r] ∧ JumpsFit (.switch label) h.results none r.blocks
  | .labeled label => ∃ r, rs = [r] ∧
      JumpsFit (.labeled label) h.results (r.blocks.head?.map (·.args)) r.blocks
  | .brk _ | .cont _ => ∃ dest, B.jump? h.id = some dest ∧ B.Reaches dest
  | .tryCatch => ∃ r₁ r₂ r₃ Bb Bc Bf, rs = [r₁, r₂, r₃] ∧ r₁.blocks = [Bb] ∧ r₂.blocks = [Bc] ∧
      r₃.blocks = [Bf] ∧ TryReady types B h.id Bb Bc Bf
  | .catchMark _ => B.payloads.get? h.id ≠ none ∧ h.operands ≠ []
  | .capture => CaptureReady f h
  | .switchState _ | .yield | .condition | .noCondition | .merge => False

/-! ## What results -/

/-- What the lowering of the op between `pre` and `post` makes of the body. -/
inductive Lowered (types : TypeTable) (o : LowerOptions) (s s' : LowerState)
    (L R : List BlockTree) (b : BlockId) (args : List ValueId) (pre post : List OpTree) :
    OpTree → List BlockTree → Prop
  | entry {h : Head} {T' : List BlockTree} (hk : h.kind = .construct .entry)
      (hl : LoweredEntry s s' L R b args pre post h T') :
      Lowered types o s s' L R b args pre post (.leaf h) T'
  | exit {h : Head} {target : BlockId} (hk : h.kind = .construct .exit)
      (ht : s.bindings.returnTo = some target) (he : s.Edited s') :
      Lowered types o s s' L R b args pre post (.leaf h) (placed L R b args pre
        [.leaf { h with kind := .transfer (.br target), operands := [] }] post none)
  | ret {h : Head} {T' : List BlockTree} (hk : h.kind = .construct .ret)
      (hl : Left s s' L R b args pre post h (s.bindings.previous h.id) T') :
      Lowered types o s s' L R b args pre post (.leaf h) T'
  | retVal {h : Head} {T' : List BlockTree} {id : OpId} {value slot : ValueId}
      (hk : h.kind = .construct .retVal) (ho : h.operands = [value, slot])
      (hl : Left s s' L R b args
        (pre ++ [.leaf ⟨id, .instr .store, [value, slot], [], h.span⟩]) post h
          (s.bindings.previous h.id) T') :
      Lowered types o s s' L R b args pre post (.leaf h) T'
  | yieldVal {h : Head} {T' : List BlockTree} (hk : h.kind = .construct .yieldVal)
      (hl : LoweredYieldVal s s' L R b args pre post h T') :
      Lowered types o s s' L R b args pre post (.leaf h) T'
  | jump {h : Head} {T' : List BlockTree} {label : Option String} {dest : Destination}
      (hk : h.kind = .construct (.brk label) ∨ h.kind = .construct (.cont label))
      (hd : s.bindings.jump? h.id = some dest) (hl : Left s s' L R b args pre post h dest T') :
      Lowered types o s s' L R b args pre post (.leaf h) T'
  | branch {h : Head} {T' B₁ B₂ : List BlockTree} {q₁ q₂ : RegionId}
      (hk : h.kind = .construct .branch)
      (hl : LoweredBranch s s' L R b args pre post h B₁ B₂ T') :
      Lowered types o s s' L R b args pre post (.mk h [⟨q₁, B₁⟩, ⟨q₂, B₂⟩]) T'
  | whileLoop {h : Head} {T' C D : List BlockTree} {q₁ q₂ : RegionId} {label : Option String}
      (hk : h.kind = .construct (.whileLoop label))
      (hl : LoweredLoop s s' (.whileLoop label) L R b args pre post h C D [] T') :
      Lowered types o s s' L R b args pre post (.mk h [⟨q₁, C⟩, ⟨q₂, D⟩]) T'
  | doWhile {h : Head} {T' C D : List BlockTree} {q₁ q₂ : RegionId} {label : Option String}
      (hk : h.kind = .construct (.doWhile label))
      (hl : LoweredLoop s s' (.doWhile label) L R b args pre post h C D [] T') :
      Lowered types o s s' L R b args pre post (.mk h [⟨q₁, D⟩, ⟨q₂, C⟩]) T'
  | forLoop {h : Head} {T' C D I : List BlockTree} {q₁ q₂ q₃ : RegionId} {label : Option String}
      (hk : h.kind = .construct (.forLoop label))
      (hl : LoweredLoop s s' (.forLoop label) L R b args pre post h C D I T') :
      Lowered types o s s' L R b args pre post (.mk h [⟨q₁, C⟩, ⟨q₂, D⟩, ⟨q₃, I⟩]) T'
  | switch {h : Head} {T' Bs : List BlockTree} {q : RegionId} {label : Option String}
      (hk : h.kind = .construct (.switch label))
      (hl : LoweredMerging s s' (.switch label) L R b args pre post h Bs T') :
      Lowered types o s s' L R b args pre post (.mk h [⟨q, Bs⟩]) T'
  | labeled {h : Head} {T' Bs : List BlockTree} {q : RegionId} {label : String}
      (hk : h.kind = .construct (.labeled label))
      (hl : LoweredMerging s s' (.labeled label) L R b args pre post h Bs T') :
      Lowered types o s s' L R b args pre post (.mk h [⟨q, Bs⟩]) T'
  | tryCatch {h : Head} {Bb Bc Bf : BlockTree} {q₁ q₂ q₃ : RegionId} {c : TryCode}
      (hk : h.kind = .construct .tryCatch) (hl : LoweredTry types o.unwind s s' h Bb Bc Bf c) :
      Lowered types o s s' L R b args pre post
        (.mk h [⟨q₁, [Bb]⟩, ⟨q₂, [Bc]⟩, ⟨q₃, [Bf]⟩]) (c.tree L R b args pre post)
  | catchMark {h : Head} {type : Option Ty} {payload var : ValueId} {rest : List ValueId}
      (hk : h.kind = .construct (.catchMark type))
      (hp : s.bindings.payloads.get? h.id = some payload) (ho : h.operands = var :: rest)
      (he : s.Edited s') :
      Lowered types o s s' L R b args pre post (.leaf h) (placed L R b args pre
        [.leaf { h with kind := .instr .saveCatch, operands := [payload, var] }] post none)
  | throw {h : Head} {cut : Option BlockId} (hk : h.kind = .construct .throw)
      (hc : cut = none ↔ post = []) (he : s.Edited s') :
      Lowered types o s s' L R b args pre post (.leaf h) (placed L R b args pre [.leaf { h with
        kind := .transfer (throwTransfer (s.bindings.unwind? h.id)) }] post cut)
  | call {h : Head} {T' : List BlockTree} {callee : String}
      (hk : h.kind = .construct (.call callee))
      (hl : LoweredCall s s' (.symbol callee) (.call callee) L R b args pre post h T') :
      Lowered types o s s' L R b args pre post (.leaf h) T'
  | callIndirect {h : Head} {T' : List BlockTree} (hk : h.kind = .construct .callIndirect)
      (hl : LoweredCall s s' .indirect .callIndirect L R b args pre post h T') :
      Lowered types o s s' L R b args pre post (.leaf h) T'
  | stateLabel {h : Head} {T' : List BlockTree} (hk : h.kind = .construct .stateLabel)
      (hl : LoweredStateLabel s s' L R b args pre post h T') :
      Lowered types o s s' L R b args pre post (.leaf h) T'
  | capture {h : Head} {T' : List BlockTree} (hk : h.kind = .construct .capture)
      (hl : LoweredCapture s s' L R b args pre post h T') :
      Lowered types o s s' L R b args pre post (.leaf h) T'

/-! ## Lowering a construct -/

section

variable {stop : Prop} {f : Func} {s : LowerState} {L R : List BlockTree} {b : BlockId}
  {args : List ValueId} {pre post : List OpTree} {x : OpTree} {h : Head} {e : Entries}

theorem Func.Holds.getOp (hf : f.Holds (L ++ ⟨b, args, pre ++ x :: post⟩ :: R) e) :
    Edit.getOp x.id f = .ok (x.toOp b) f :=
  hf.arena.at_op.getOp

/-- The region that an op lacks. -/
theorem Func.Holds.regionOf_missing (i : Nat)
    (hf : f.Holds (L ++ ⟨b, args, pre ++ .leaf h :: post⟩ :: R) e) :
    Lower.regionOf h.id i f = .error (.contractAt h.id (.missingRegion i)) f := by
  have hop : Edit.getOp h.id f = .ok ((OpTree.leaf h).toOp b) f := hf.getOp
  change EStateM.bind _ _ f = _
  rw [EStateM.bind, hop]
  rfl

section Bare

variable {Q : Unit → LowerState → Prop} (hs : stop)
  (hf : s.func.Holds (L ++ ⟨b, args, pre ++ .leaf h :: post⟩ :: R) 0)
include hs hf

/-! A construct without its regions is refused. -/

theorem Func.Holds.lowerBranch_bare : Meets stop (Lower.lowerBranch h.id) s Q := by
  have hop : Edit.getOp h.id s.func = .ok ((OpTree.leaf h).toOp b) s.func := hf.getOp
  refine .editStep hop ?_
  cases ho : ((OpTree.leaf h).toOp b).operands with
  | nil => exact .throw hs
  | cons cond rest => exact .fail (Edit.lower_error (hf.regionOf_missing 0)) hs

theorem Func.Holds.lowerWhile_bare (c : Construct) : Meets stop (Lower.lowerWhile h.id c) s Q := by
  have hop : Edit.getOp h.id s.func = .ok ((OpTree.leaf h).toOp b) s.func := hf.getOp
  exact .editStep hop (.fail (Edit.lower_error (hf.regionOf_missing 0)) hs)

theorem Func.Holds.lowerDoWhile_bare (c : Construct) :
    Meets stop (Lower.lowerDoWhile h.id c) s Q := by
  have hop : Edit.getOp h.id s.func = .ok ((OpTree.leaf h).toOp b) s.func := hf.getOp
  exact .editStep hop (.fail (Edit.lower_error (hf.regionOf_missing 0)) hs)

theorem Func.Holds.lowerFor_bare (c : Construct) : Meets stop (Lower.lowerFor h.id c) s Q :=
  .fail (Edit.lower_error (hf.regionOf_missing 0)) hs

theorem Func.Holds.lowerMerging_bare (c : Construct) : Meets stop (Lower.lowerMerging h.id c) s Q :=
  .fail (Edit.lower_error (hf.regionOf_missing 0)) hs

theorem Func.Holds.lowerTry_bare (types : TypeTable) (strategy : UnwindStrategy) :
    Meets stop (Lower.lowerTry types strategy h.id) s Q := by
  have hop : Edit.getOp h.id s.func = .ok ((OpTree.leaf h).toOp b) s.func := hf.getOp
  exact .editStep hop (.throw hs)

end Bare

/-- A construct without regions is lowered as its case of `Lowered` says, or it is not ready. -/
theorem Func.Holds.lowerLeaf (types : TypeTable) (o : LowerOptions) {c : Construct}
    (hf : s.func.Holds (L ++ ⟨b, args, pre ++ .leaf h :: post⟩ :: R) 0) (hk : h.kind = .construct c)
    (hr : ¬c.Ready types s.func s.bindings h [] → stop) :
    Meets stop (Lower.lowerConstruct types o h.id c) s fun _ s' => ∃ T', s'.func.Holds T' 0 ∧
      Lowered types o s s' L R b args pre post (.leaf h) T' := by
  cases c with
  | entry =>
    refine hf.lowerEntry.mono ?_
    rintro _ s' ⟨T', hf', hl⟩
    exact ⟨T', hf', .entry hk hl⟩
  | exit =>
    refine (hf.lowerExit fun hn => hr fun hR => hR hn).mono ?_
    rintro _ s' ⟨target, ht, hf', he⟩
    exact ⟨_, hf', .exit hk ht he⟩
  | ret =>
    refine (hf.lowerReturn hr).mono ?_
    rintro _ s' ⟨T', hf', hl⟩
    exact ⟨T', hf', .ret hk hl⟩
  | retVal =>
    have ho : (∀ value slot, h.operands ≠ [value, slot]) → stop := by
      refine fun hn => hr ?_
      rintro ⟨⟨value, slot, ho⟩, -⟩
      exact hn value slot ho
    refine (hf.lowerReturnVal ho fun hn => hr fun hR => hn hR.2).mono ?_
    rintro _ s' ⟨T', id, value, slot, hf', ho, hl⟩
    exact ⟨T', hf', .retVal hk ho hl⟩
  | yieldVal =>
    have ho : (∀ value slot, h.operands ≠ [value, slot]) → stop := by
      refine fun hn => hr ?_
      rintro ⟨⟨value, slot, ho⟩, -⟩
      exact hn value slot ho
    refine (hf.lowerYieldVal ho fun hn => hr fun hR => hR.2 hn).mono ?_
    rintro _ s' ⟨T', hf', hl⟩
    exact ⟨T', hf', .yieldVal hk hl⟩
  | brk label =>
    refine (hf.lowerJump hr).mono ?_
    rintro _ s' ⟨T', dest, hf', hd, hl⟩
    exact ⟨T', hf', .jump (.inl hk) hd hl⟩
  | cont label =>
    refine (hf.lowerJump hr).mono ?_
    rintro _ s' ⟨T', dest, hf', hd, hl⟩
    exact ⟨T', hf', .jump (.inr hk) hd hl⟩
  | catchMark type =>
    refine (hf.lowerCatch (fun hn => hr fun hR => hR.1 hn) fun hn => hr fun hR => hR.2 hn).mono ?_
    rintro _ s' ⟨payload, var, rest, hp, ho, hf', he⟩
    exact ⟨_, hf', .catchMark hk hp ho he⟩
  | throw =>
    refine hf.lowerThrow.mono ?_
    rintro _ s' ⟨cut, hc, hf', he⟩
    exact ⟨_, hf', .throw hk hc he⟩
  | call callee =>
    refine hf.lowerCall.mono ?_
    rintro _ s' ⟨T', hf', hl⟩
    exact ⟨T', hf', .call hk hl⟩
  | callIndirect =>
    refine hf.lowerCall.mono ?_
    rintro _ s' ⟨T', hf', hl⟩
    exact ⟨T', hf', .callIndirect hk hl⟩
  | stateLabel =>
    refine hf.lowerStateLabel.mono ?_
    rintro _ s' ⟨T', hf', hl⟩
    exact ⟨T', hf', .stateLabel hk hl⟩
  | capture =>
    refine (hf.lowerCapture hr).mono ?_
    rintro _ s' ⟨T', hf', hl⟩
    exact ⟨T', hf', .capture hk hl⟩
  | branch =>
    refine hf.lowerBranch_bare (hr ?_)
    rintro ⟨-, r₁, r₂, hrs, -⟩
    cases hrs
  | whileLoop label =>
    refine hf.lowerWhile_bare (hr ?_) _
    rintro ⟨r₁, r₂, hrs, -⟩
    cases hrs
  | doWhile label =>
    refine hf.lowerDoWhile_bare (hr ?_) _
    rintro ⟨r₁, r₂, hrs, -⟩
    cases hrs
  | forLoop label =>
    refine hf.lowerFor_bare (hr ?_) _
    rintro ⟨r₁, r₂, r₃, hrs, -⟩
    cases hrs
  | switch label =>
    refine hf.lowerMerging_bare (hr ?_) _
    rintro ⟨r, hrs, -⟩
    cases hrs
  | labeled label =>
    refine hf.lowerMerging_bare (hr ?_) _
    rintro ⟨r, hrs, -⟩
    cases hrs
  | tryCatch =>
    refine hf.lowerTry_bare (hr ?_) types _
    rintro ⟨r₁, r₂, r₃, Bb, Bc, Bf, hrs, -⟩
    cases hrs
  | switchState _ | yield | condition | noCondition | merge => exact .throw (hr id)

/-- A construct with the regions of its kind is lowered as its case of `Lowered` says, or it is not
ready. -/
theorem Func.Holds.lowerNested (types : TypeTable) (o : LowerOptions) {c : Construct}
    {rs : List RegionTree} (hf : s.func.Holds (L ++ ⟨b, args, pre ++ .mk h rs :: post⟩ :: R) 0)
    (hk : h.kind = .construct c) (hx : ∀ r ∈ rs, Everywhere OpTree.Fits r.blocks)
    (hrs : rs.length = c.regionSizes.length) (hne : rs ≠ [])
    (htry : c = .tryCatch → ∀ r ∈ rs, ∃ B, r.blocks = [B])
    (hr : ¬c.Ready types s.func s.bindings h rs → stop) :
    Meets stop (Lower.lowerConstruct types o h.id c) s fun _ s' => ∃ T', s'.func.Holds T' 0 ∧
      Lowered types o s s' L R b args pre post (.mk h rs) T' := by
  cases c with
  | branch =>
    obtain ⟨r₁, r₂, rfl⟩ := List.length_eq_two.mp hrs
    refine (hf.lowerBranch (fun ho => hr ?_) (fun cond rest ho hn => hr ?_)
      fun hne he => hr ?_).mono ?_
    · rintro ⟨⟨cond, rest, ho', -⟩, -⟩
      exact absurd (ho.symm.trans ho') (List.cons_ne_nil _ _).symm
    · rintro ⟨⟨cond', rest', ho', hv⟩, -⟩
      rw [ho] at ho'
      cases ho'
      exact hv hn
    · rintro ⟨-, r₁', r₂', hrs, hE⟩
      cases hrs
      exact hE hne he
    · rintro _ s' ⟨T', hf', hl⟩
      exact ⟨T', hf', .branch hk hl⟩
  | whileLoop label =>
    obtain ⟨r₁, r₂, rfl⟩ := List.length_eq_two.mp hrs
    refine (hf.lowerWhile fun hl => hr ?_).mono ?_
    · rintro ⟨r₁', r₂', hrs, hE⟩
      cases hrs
      exact hl hE
    · rintro _ s' ⟨T', hf', hl⟩
      exact ⟨T', hf', .whileLoop hk hl⟩
  | doWhile label =>
    obtain ⟨r₁, r₂, rfl⟩ := List.length_eq_two.mp hrs
    refine (hf.lowerDoWhile fun hl => hr ?_).mono ?_
    · rintro ⟨r₁', r₂', hrs, hE⟩
      cases hrs
      exact hl hE
    · rintro _ s' ⟨T', hf', hl⟩
      exact ⟨T', hf', .doWhile hk hl⟩
  | forLoop label =>
    obtain ⟨r₁, r₂, r₃, rfl⟩ := List.length_eq_three.mp hrs
    refine (hf.lowerFor fun hl => hr ?_).mono ?_
    · rintro ⟨r₁', r₂', r₃', hrs, hE⟩
      cases hrs
      exact hl hE
    · rintro _ s' ⟨T', hf', hl⟩
      exact ⟨T', hf', .forLoop hk hl⟩
  | switch label =>
    obtain ⟨r₁, rfl⟩ := List.length_eq_one_iff.mp hrs
    refine (hf.lowerMerging fun hl => hr ?_).mono ?_
    · rintro ⟨r', hrs, hE⟩
      cases hrs
      exact hl hE
    · rintro _ s' ⟨T', hf', hl⟩
      exact ⟨T', hf', .switch hk hl⟩
  | labeled label =>
    obtain ⟨r₁, rfl⟩ := List.length_eq_one_iff.mp hrs
    refine (hf.lowerMerging fun hl => hr ?_).mono ?_
    · rintro ⟨r', hrs, hE⟩
      cases hrs
      exact hl hE
    · rintro _ s' ⟨T', hf', hl⟩
      exact ⟨T', hf', .labeled hk hl⟩
  | tryCatch =>
    obtain ⟨r₁, r₂, r₃, rfl⟩ := List.length_eq_three.mp hrs
    obtain ⟨q₁, B₁⟩ := r₁
    obtain ⟨q₂, B₂⟩ := r₂
    obtain ⟨q₃, B₃⟩ := r₃
    obtain ⟨Bb, rfl⟩ : ∃ B, B₁ = [B] := htry rfl ⟨q₁, B₁⟩ (by simp)
    obtain ⟨Bc, rfl⟩ : ∃ B, B₂ = [B] := htry rfl ⟨q₂, B₂⟩ (by simp)
    obtain ⟨Bf, rfl⟩ : ∃ B, B₃ = [B] := htry rfl ⟨q₃, B₃⟩ (by simp)
    have hbare : ∀ B ∈ [Bc, Bf], B.holdsOps = false → ∀ n ∈ B.ops, n.regions = [] := by
      intro B hB
      refine regions_eq_nil_of_holdsOps ?_
      obtain rfl | rfl : B = Bc ∨ B = Bf := by simpa using hB
      · exact (hx ⟨q₂, [B]⟩ (by simp)).eachOp (by simp)
      · exact (hx ⟨q₃, [B]⟩ (by simp)).eachOp (by simp)
    refine (hf.lowerTry types o.unwind hbare fun hl => hr ?_).mono ?_
    · rintro ⟨r₁', r₂', r₃', Bb', Bc', Bf', hrs, hb, hc, hf, hE⟩
      cases hrs
      cases hb
      cases hc
      cases hf
      exact hl hE
    · rintro _ s' ⟨c, hf', hl⟩
      exact ⟨_, hf', .tryCatch hk hl⟩
  | _ => exact absurd (List.length_eq_zero_iff.mp hrs) hne

/-- A construct is lowered as its case of `Lowered` says, or it is not ready. -/
theorem Func.Holds.lowerConstruct (types : TypeTable) (o : LowerOptions) {c : Construct}
    (hf : s.func.Holds (L ++ ⟨b, args, pre ++ x :: post⟩ :: R) 0) (hk : x.kind = .construct c)
    (hx : ∀ m : OpTree, m.Within x → m.Fits)
    (hr : ¬c.Ready types s.func s.bindings x.head x.regions → stop) :
    Meets stop (Lower.lowerConstruct types o x.id c) s fun _ s' => ∃ T', s'.func.Holds T' 0 ∧
      Lowered types o s s' L R b args pre post x T' := by
  obtain ⟨h, rs⟩ := x
  obtain ⟨hfit, hx⟩ := within_mk_iff.mp hx
  by_cases hne : rs = []
  · subst hne
    exact hf.lowerLeaf types o hk hr
  · obtain hrs | ⟨hrs, htry⟩ := hfit
    · exact absurd hrs hne
    · rw [hk] at hrs
      exact hf.lowerNested types o hk hx hrs hne (fun hc => htry (by rw [hk, hc])) hr

/-- The state with one more construct taken up. -/
def LowerState.tick (s : LowerState) : LowerState :=
  { s with stats := { s.stats with constructs := s.stats.constructs + 1 } }

/-- A round of the lowering. -/
theorem Func.Holds.lowerOp (types : TypeTable) (o : LowerOptions) {c : Construct}
    (hf : s.func.Holds (L ++ ⟨b, args, pre ++ x :: post⟩ :: R) 0) (hk : x.kind = .construct c)
    (hx : ∀ m : OpTree, m.Within x → m.Fits)
    (hr : ¬c.Ready types s.func s.bindings x.head x.regions → stop) :
    Meets stop (Lower.lowerOp types o x.id) s fun _ s' => ∃ T', s'.func.Holds T' 0 ∧
      Lowered types o s.tick s' L R b args pre post x T' := by
  have hkind : Edit.getKind x.id s.func = .ok (.construct c) s.func := by
    rw [← hk]
    exact hf.arena.at_op.getKind
  refine .editStep hkind ?_
  refine .step (b := ()) (t := s.tick) rfl ?_
  exact Func.Holds.lowerConstruct (s := s.tick) types o hf hk hx hr

end

end Unnest
