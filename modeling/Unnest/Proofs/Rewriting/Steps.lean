import Unnest.Lower.Branching
import Unnest.Lower.Unwinding
import Unnest.Proofs.Keeps
import Unnest.Proofs.Ownership.Basic
/-!
# The steps of a rewriting

Every rewriting of a construct is made of the same few steps, and an invariant of the function that
each of them keeps is kept by all rewritings. Between two steps a rewriting has something in hand:
the construct, in the state it has been brought to, the regions that are still to be laid out,
blocks that have no owner yet, and ops whose kind it relies on. `Hand` says what that is, an
invariant may depend on it, and `Upkeep` lists the steps with what they need and what they leave in
hand.
-/

namespace Unnest

/-- What has become of the construct under way. -/
inductive Site where
  /-- There is none, or nothing is left to do for it. -/
  | done
  /-- It stands where it stood. -/
  | whole (op : OpId) (c : Construct)
  /-- It has become a transfer, and what followed it still does. -/
  | turned (op : OpId)
  /-- What followed it has just been split off. -/
  | split (op : OpId) (next : BlockId)
  /-- What followed it is in `next`, and a transfer is to take its place. -/
  | last (op : OpId) (next : BlockId)
  /-- It is settled, but for a block of the body that lacks its transfer. -/
  | opened (b : BlockId)

/-- What a rewriting has in hand. -/
structure Hand where
  site : Site := .done
  /-- Regions of the construct. -/
  regions : List RegionId := []
  /-- Blocks to be laid out, or to be discarded. -/
  free : List BlockId := []
  /-- Blocks being written. -/
  drafts : List BlockId := []
  /-- Ends of blocks. -/
  ends : List OpId := []
  /-- Ops that something may follow. -/
  runs : List OpId := []

variable {σ α β γ : Type}

/-- From a state that fits the hand `P`, `x` ends in one that fits what it has in hand then, or
stops cleanly in one that `E` holds of. -/
def Turns (J : Hand → σ → Prop) (E : σ → Prop) (P : Hand) (x : EStateM Stop σ α) (Q : α → Hand) :
    Prop :=
  ∀ s, J P s → Keeps E x s fun a s' => J (Q a) s'

/-- `E` holds of every state that fits a hand. -/
class Bears (J : Hand → σ → Prop) (E : outParam (σ → Prop)) : Prop where
  bears {P : Hand} {s : σ} : J P s → E s

namespace Turns

variable {J : Hand → σ → Prop} {E : σ → Prop} {P P' : Hand} {x : EStateM Stop σ α} {Q : α → Hand}

theorem pure {a : α} (h : P = Q a) : Turns J E P (Pure.pure a) Q := fun _ hs => .pure (h ▸ hs)

theorem bind {k : α → EStateM Stop σ β} {R : β → Hand} (h : Turns J E P x Q)
    (hk : ∀ a, Turns J E (Q a) (k a) R) : Turns J E P (x >>= k) R :=
  fun s hs => .bind (h s hs) fun a s' h' => hk a s' h'

theorem map {g : α → β} {R : β → Hand} (h : Turns J E P x fun a => R (g a)) :
    Turns J E P (g <$> x) R :=
  fun s hs => .map (h s hs)

theorem of_imp (h : Turns J E P' x Q) (hp : ∀ s, J P s → J P' s) : Turns J E P x Q :=
  fun s hs => h s (hp s hs)

theorem imp {R : α → Hand} (h : Turns J E P x Q) (hq : ∀ a s, J (Q a) s → J (R a) s) :
    Turns J E P x R :=
  fun s hs => (h s hs).mono fun a s' => hq a s'

theorem forM {l : List γ} {k : γ → EStateM Stop σ PUnit}
    (h : ∀ c ∈ l, Turns J E P (k c) fun _ => P) : Turns J E P (l.forM k) fun _ => P := by
  induction l with
  | nil => exact fun _ hs => .pure hs
  | cons c l ih => exact .bind (h c (by simp)) fun _ => ih fun c hc => h c (by simp [hc])

theorem mapM {l : List γ} {k : γ → EStateM Stop σ β} (h : ∀ c, Turns J E P (k c) fun _ => P) :
    Turns J E P (l.mapM k) fun _ => P :=
  fun _ hs => .mapM hs fun c s' hs' => h c s' hs'

variable [hE : Bears J E]

theorem throw {e : Stop} : Turns J E P (MonadExcept.throw e) Q := fun _ h => .throw (hE.bears h)

theorem throwBind {e : Stop} {k : α → EStateM Stop σ β} {R : β → Hand} :
    Turns J E P (MonadExcept.throw e >>= k) R :=
  fun _ h => .bind (m := fun _ _ => False) (.throw (hE.bears h)) fun _ _ => False.elim

theorem reads (h : Reads x) : Turns J E P x fun _ => P :=
  fun _ hs => .reads h (hE.bears hs) fun _ _ => hs

theorem read {k : α → EStateM Stop σ β} {R : β → Hand} (h : Reads x)
    (hk : ∀ a, Turns J E P (k a) R) : Turns J E P (x >>= k) R :=
  .bind (.reads h) hk

end Turns

/-! ## The steps -/

open Edit

/-- An invariant that the steps of a rewriting keep, given what the rewriting has in hand. -/
class Upkeep (I : Hand → Func → Prop) (E : outParam (Func → Prop)) : Prop extends Bears I E where
  -- what may be taken in hand and let go
  enter {f : Func} {b : BlockId} {op : OpId} {d : Op} {c : Construct} : I {} f →
    b ∈ f.blocksIn f.body → op ∈ f.opsIn b → f.op? op = some d → d.kind = .construct c →
      I { site := .whole op c } f
  drop {P : Hand} {f : Func} : I P f → I { site := P.site } f
  marks {P : Hand} {f : Func} {l : List OpId} : I P f →
    (∀ x ∈ l, f.kindIs OpKind.isTerminator x = true) → I { P with ends := l } f
  region {P : Hand} {f : Func} {op : OpId} {c : Construct} {d : Op} {r : RegionId} : I P f →
    P.site = .whole op c → f.op? op = some d → r ∈ d.regions →
      I { P with regions := r :: P.regions } f
  sort {P : Hand} {f : Func} {l : List BlockId} : I P f → P.free.Perm l → I { P with free := l } f
  loosen {P : Hand} {f : Func} {op : OpId} {next : BlockId} : I P f → P.site = .split op next →
    I { P with site := .last op next } f
  -- changes in place
  operands {P : Hand} {x : OpId} {vs : List ValueId} : Turns I E P (setOperands x vs) fun _ => P
  uses {P : Hand} {v w : ValueId} : Turns I E P (replaceAllUses v w) fun _ => P
  arg {P : Hand} {b : BlockId} {ty : Ty} : Turns I E P (addBlockArg b ty) fun _ => P
  endKind {P : Hand} {x : OpId} {t : Transfer} : x ∈ P.ends →
    Turns I E P (replaceKind x (.transfer t)) fun _ => P
  runKind {P : Hand} {op : OpId} {c : Construct} {i : Instr} : P.site = .whole op c →
    c.isTerminator = false → Turns I E P (replaceKind op (.instr i)) fun _ => { runs := [op] }
  exitKind {P : Hand} {op : OpId} {c : Construct} {t : Transfer} : P.site = .whole op c →
    c.isTerminator = true → Turns I E P (replaceKind op (.transfer t)) fun _ => {}
  leaveKind {P : Hand} {op : OpId} {c : Construct} {t : Transfer} : P.site = .whole op c →
    c.isTerminator = false →
      Turns I E P (replaceKind op (.transfer t)) fun _ => { site := .turned op }
  splitKind {P : Hand} {op : OpId} {next : BlockId} {t : Transfer} : P.site = .split op next →
    Turns I E P (replaceKind op (.transfer t)) fun _ => {}
  -- new ops and blocks
  before {P : Hand} {x : OpId} {i : Instr} {vs : List ValueId} {tys : List Ty} :
    Turns I E P (emitBefore x (.instr i) vs tys) fun _ => P
  after {x : OpId} {i : Instr} {vs : List ValueId} {tys : List Ty} :
    Turns I E { runs := [x] } (emitAfter x (.instr i) vs tys) fun y => { runs := [y] }
  first {P : Hand} {f : Func} {op : OpId} {next b : BlockId} {i : Instr} {vs : List ValueId}
    {tys : List Ty} : I P f → P.site = .last op next → b ∈ f.blocksIn f.body →
      Keeps E (createOp (.instr i) vs tys 0) f fun x f₁ =>
        Keeps E (insertOpAtStart b x) f₁ fun _ f₂ => I P f₂
  draft {P : Hand} {op : OpId} {next : BlockId} : P.site = .last op next →
    Turns I E P (newBlock []) fun b => { P with drafts := b :: P.drafts }
  emit {P : Hand} {op : OpId} {next b : BlockId} {i : Instr} {vs : List ValueId} {tys : List Ty} :
    P.site = .last op next → b ∈ P.drafts →
      Turns I E P (emitAtEnd b (.instr i) vs tys) fun _ => P
  finish {P : Hand} {op : OpId} {next b : BlockId} {rest : List BlockId} {t : Transfer}
    {vs : List ValueId} : P.site = .last op next → P.drafts = b :: rest →
      Turns I E P (emitAtEnd b (.transfer t) vs []) fun _ =>
        { P with drafts := rest, free := b :: P.free }
  append {f : Func} : I {} f → Keeps E (newBlock []) f fun b f₁ =>
    Keeps E (appendBlock f₁.body b) f₁ fun _ f₂ => I { site := .opened b } f₂
  emitOpen {b : BlockId} {i : Instr} {vs : List ValueId} {tys : List Ty} :
    Turns I E { site := .opened b } (emitAtEnd b (.instr i) vs tys) fun _ => { site := .opened b }
  finishOpen {b : BlockId} {t : Transfer} {vs : List ValueId} :
    Turns I E { site := .opened b } (emitAtEnd b (.transfer t) vs []) fun _ => {}
  -- the layout
  cut {P : Hand} {op : OpId} {c : Construct} : P.site = .whole op c → c.isTerminator = false →
    Turns I E P (splitAfter op) fun next => { site := .split op next, regions := P.regions }
  cutRest {P : Hand} {f : Func} {op : OpId} {b : BlockId} : I P f → P.site = .turned op →
    f.ownerOfOp op = some b → (f.opsIn b).getLast? ≠ some op →
      Keeps E (splitAfter op) f fun _ f' => I {} f'
  noRest {P : Hand} {f : Func} {op : OpId} {b : BlockId} : I P f → P.site = .turned op →
    f.ownerOfOp op = some b → (f.opsIn b).getLast? = some op → I {} f
  take {P : Hand} {op : OpId} {next : BlockId} {r : RegionId} : P.site = .last op next →
    r ∈ P.regions → Turns I E P (takeRegion r) fun l => { P with free := l ++ P.free, ends := [] }
  clone {P : Hand} {op : OpId} {next : BlockId} {r : RegionId} : P.site = .last op next →
    r ∈ P.regions →
      Turns I E P (cloneRegion r) fun p => { P with free := p.1 ++ P.free, ends := [] }
  splice {P : Hand} {op : OpId} {next : BlockId} {l rest : List BlockId} :
    P.site = .last op next → P.free = l ++ rest →
      Turns I E P (spliceBefore next l) fun _ => { P with free := rest }
  discard {P : Hand} {op : OpId} {next : BlockId} {l rest : List BlockId} :
    P.site = .last op next → P.free = l ++ rest →
      Turns I E P (discardBlocks l) fun _ => { P with free := rest, ends := [] }
  erase {P : Hand} {op : OpId} {c : Construct} : P.site = .whole op c → c.isTerminator = false →
    Turns I E P (eraseOp op) fun _ => {}
  close {P : Hand} {f : Func} {op : OpId} {next b : BlockId} {t : Transfer} {vs : List ValueId} :
    I P f → P.site = .last op next → f.ownerOfOp op = some b →
      Keeps E (eraseOp op) f fun _ f₁ =>
        Keeps E (emitAtEnd b (.transfer t) vs []) f₁ fun _ f₂ => I {} f₂

/-! ## Steps of a lowering -/

/-- The function fits the hand, and `D` are the dispatches that have been put off. -/
def Under (I : Hand → Func → Prop) (D : List OpId) (P : Hand) (s : LowerState) : Prop :=
  I P s.func ∧ s.bindings.pending = D

/-- A step of a lowering: no rewriting puts off a dispatch. -/
abbrev Lowers (I : Hand → Func → Prop) (E : Func → Prop) (D : List OpId) (P : Hand) (x : Lower α)
    (Q : α → Hand) : Prop :=
  Turns (Under I D) (fun s => E s.func) P x Q

variable {I : Hand → Func → Prop} {E : Func → Prop} {D : List OpId} {P : Hand}

instance [h : Bears I E] : Bears (Under I D) (fun s => E s.func) where
  bears hs := h.bears hs.1

namespace Turns

variable {Q : α → Hand} {R : β → Hand}

theorem edit {x : Edit α} (h : Turns I E P x Q) : Lowers I E D P (liftM x) Q :=
  fun s hs => .edit (h s.func hs.1) fun _ _ h' => ⟨h', hs.2⟩

theorem editBind {x : Edit α} {k : α → Lower β} (h : Turns I E P x Q)
    (hk : ∀ a, Lowers I E D (Q a) (k a) R) : Lowers I E D P (liftM x >>= k) R :=
  .bind (edit h) hk

theorem editRead [Bears I E] {x : Edit α} {k : α → Lower β} (h : Reads x)
    (hk : ∀ a, Lowers I E D P (k a) R) : Lowers I E D P (liftM x >>= k) R :=
  .read h.edit hk

/-- What is entered in the bindings defers nothing. -/
theorem settle {g : Bindings → Bindings} (hg : ∀ b, (g b).pending = b.pending) :
    Lowers I E D P (Lower.settle g) fun _ => P :=
  fun _ hs => .update ⟨hs.1, (hg _).trans hs.2⟩

theorem settleAll {l : List γ} {g : Bindings → γ → Bindings}
    (hg : ∀ b c, (g b c).pending = b.pending) :
    Lowers I E D P (Lower.settle fun b => l.foldl g b) fun _ => P := by
  refine settle fun b => ?_
  induction l generalizing b with
  | nil => rfl
  | cons c l ih => exact (ih (g b c)).trans (hg b c)

theorem count (g : LowerStats → LowerStats) : Lowers I E D P (Lower.count g) fun _ => P :=
  fun _ hs => .update hs

end Turns

namespace Lower

theorem getFunc_reads : Reads getFunc := Reads.get.bind fun _ => .pure _

theorem getBindings_reads : Reads getBindings := Reads.get.bind fun _ => .pure _

theorem entryOf_reads (op : OpId) (blocks : List BlockId) (what : String) :
    Reads (entryOf op blocks what) := by
  unfold entryOf
  split
  · exact .pure _
  · exact .throw _

theorem hasOps_reads (r : RegionId) : Reads (hasOps r) := by
  refine Reads.get.bind fun f => (Reads.lift _).bind fun ops => ?_
  induction ops with
  | nil => exact .pure _
  | cons op ops ih =>
    refine ((Reads.lift _).bind fun _ => .pure _).bind fun found => ?_
    cases found with
    | true => exact .pure _
    | false => exact ih

theorem catchType_reads (types : TypeTable) (op : OpId) (marks : List OpId) :
    Reads (catchType types op marks) := by
  unfold catchType
  split
  · exact .pure _
  refine (getKind_reads _).bind fun kind => ?_
  split
  · exact .pure _
  split
  · exact .pure _
  · exact .throw _

end Lower

end Unnest
