import Unnest.Proofs.Budget
import Unnest.Proofs.Machine.Cells
import Unnest.Proofs.Machine.Memory
import Unnest.Proofs.Ownership.Reachable
import Unnest.Proofs.Tidy.Gathering
/-!
# Captures at run time

A capture is lowered to an allocation and, behind it, ops that fill the new cell field by field.
`FieldCode` describes these ops, `storeFields_emits` says that they are emitted in a row behind the
capture, and `FieldCode.traverses` what a machine does with them: after each field the cell holds
the captured contents up to there and what it was allocated with from there on. `lowerCapture_fills`
puts the two together.
-/

namespace Unnest

/-! ## Ops in a row -/

namespace Func

/-- The op stands in the block between the ops `pre` and the ops `post`. -/
structure Stands (f : Func) (b : BlockId) (pre : List OpId) (x : OpId) (post : List OpId) :
    Prop where
  op : ∃ d, f.op? x = some d ∧ d.parent = some b
  block : ∃ bd, f.block? b = some bd ∧ bd.ops = pre ++ x :: post
  first : x ∉ pre
  /-- What is listed before it is in the table, so that a new op is none of it. -/
  known : ∀ y ∈ pre, y.index < f.ops.size

/-- The table has the op, with the given kind, operands and results. -/
def IsOp (look : OpId → Option Op) (x : OpId) (kind : OpKind) (operands results : List ValueId) :
    Prop :=
  ∃ d, look x = some d ∧ d.kind = kind ∧ d.operands = operands ∧ d.results = results

theorem IsOp.mono {look look' : OpId → Option Op} {x : OpId} {kind : OpKind}
    {operands results : List ValueId} (h : IsOp look x kind operands results)
    (hl : ∀ d, look x = some d → look' x = some d) : IsOp look' x kind operands results :=
  h.imp fun d hd => ⟨hl d hd.1, hd.2⟩

/-- `f'` still has the ops and the values of `f`. -/
structure Enlarges (f f' : Func) : Prop where
  ops : ∀ x d, f.op? x = some d → f'.op? x = some d
  grows : f.GrowsTo f'

theorem Enlarges.refl (f : Func) : f.Enlarges f := ⟨fun _ _ => id, .refl f⟩

theorem Enlarges.trans {f f' f'' : Func} (h : f.Enlarges f') (h' : f'.Enlarges f'') :
    f.Enlarges f'' :=
  ⟨fun x d hx => h'.ops x d (h.ops x d hx), h.grows.trans h'.grows⟩

end Func

namespace Edit

variable {f : Func} {b : BlockId} {pre post : List OpId} {x : OpId} {kind : OpKind}
  {operands : List ValueId} {tys : List Ty}

theorem insertOpAfter_eq {y : OpId} {yd : Op} (h : f.Stands b pre x post)
    (hy : f.op? y = some yd) : insertOpAfter x y f =
      .ok () ((f.atOp y fun d => { d with parent := some b }).atBlock b fun d =>
        { d with ops := d.ops.insertIdx (pre.length + 1) y }) := by
  obtain ⟨d, hd, hp⟩ := h.op
  obtain ⟨bd, hb, hops⟩ := h.block
  have hplace : bd.ops.idxOf x = pre.length := by
    simp [hops, List.idxOf_append_of_notMem h.first]
  unfold insertOpAfter
  refine (bind_of_ok (placeOfOp_eq hd hp hb (by simp [hops]))).trans ?_
  rw [hplace]
  refine (bind_of_ok (modifyOp_eq hy _)).trans ?_
  exact modifyBlock_eq (by simpa using hb) _

theorem emitAfter_stands {stop : Prop} (h : f.Stands b pre x post) :
    Meets stop (emitAfter x kind operands tys) f fun y f' =>
      f.Enlarges f' ∧ f'.Stands b (pre ++ [x]) y post ∧
      Func.IsOp f'.op? y kind operands (f.freshValues tys.length) ∧
      f'.values.size = f.values.size + tys.length := by
  obtain ⟨d, hd, hp⟩ := h.op
  obtain ⟨bd, hb, hops⟩ := h.block
  have hlt : x.index < f.ops.size := f.op?_size hd
  have hne : x ≠ ⟨f.ops.size⟩ := fun heq => by simp [heq] at hlt
  have hnew : f.op? ⟨f.ops.size⟩ = none := by simp [Func.op?]
  refine .step (b := ⟨f.ops.size⟩) (t := f.withOp kind operands tys 0) rfl ?_
  refine .step (getOp_eq (d := d) (by grind)) ?_
  refine .step (modifyOp_eq ((f.op?_withOp ..).trans (if_pos rfl)) _) ?_
  generalize hf₁ : (f.withOp kind operands tys 0).atOp ⟨f.ops.size⟩ _ = f₁
  have hold (z : OpId) (hz : z ≠ ⟨f.ops.size⟩) : f₁.op? z = f.op? z := by grind
  have hblk : f₁.block? b = some bd := by rw [← hf₁]; simpa using hb
  have hy : Func.IsOp f₁.op? ⟨f.ops.size⟩ kind operands (f.freshValues tys.length) := by
    rw [Func.IsOp, ← hf₁, Func.op?_atOp, if_pos rfl, f.op?_withOp, if_pos rfl]
    exact ⟨_, rfl, rfl, rfl, rfl⟩
  have hsize : f₁.ops.size = f.ops.size + 1 := by simp [← hf₁, Func.atOp, Func.withOp]
  have hgrow : f.Grows f₁ (tys.zipIdx.map fun p => ⟨p.1, .opResult ⟨f.ops.size⟩ p.2⟩) := by
    subst hf₁
    exact ⟨rfl, rfl, rfl, rfl, by simp [Func.atOp, Func.withOp]⟩
  have h₁ : f₁.Stands b pre x post :=
    ⟨⟨d, (hold x hne).trans hd, hp⟩, ⟨bd, hblk, hops⟩, h.first,
      fun z hz => (h.known z hz).trans (by omega)⟩
  obtain ⟨yd, hyd, hk, ho, hr⟩ := hy
  have hz_ne {z : OpId} (hz : z.index < f.ops.size) : z ≠ ⟨f.ops.size⟩ := fun heq => by
    simp [heq] at hz
  refine .step (insertOpAfter_eq h₁ hyd) (.pure ⟨⟨fun z zd hz => ?_, ?_⟩, ⟨?_, ?_, ?_, ?_⟩, ?_, ?_⟩)
  · have hne := hz_ne (f.op?_size hz)
    rw [Func.op?_atBlock, Func.op?_atOp, if_neg hne, hold z hne, hz]
  · exact ⟨_, hgrow.name, hgrow.sig, hgrow.body, hgrow.values,
      by simpa [Func.atOp, Func.atBlock] using hgrow.ops⟩
  · exact ⟨_, by rw [Func.op?_atBlock, Func.op?_atOp, if_pos rfl, hyd]; rfl, rfl⟩
  · refine ⟨_, by rw [Func.block?_atBlock, if_pos rfl, Func.block?_atOp, hblk]; rfl, ?_⟩
    simp [hops, Arena.insertIdx_append_cons]
  · intro hmem
    rcases List.mem_append.mp hmem with hmem | hmem
    · exact hz_ne (h.known _ hmem) rfl
    · exact hne (List.mem_singleton.mp hmem).symm
  · intro z hz
    have : z.index < f.ops.size := by
      rcases List.mem_append.mp hz with hz | hz
      · exact h.known z hz
      · exact List.mem_singleton.mp hz ▸ hlt
    simp only [Func.atOp, Func.atBlock, Array.size_modify]
    omega
  · exact ⟨{ yd with parent := some b },
      by rw [Func.op?_atBlock, Func.op?_atOp, if_pos rfl, hyd]; rfl, hk, ho, hr⟩
  · simpa [Func.atOp, Func.atBlock] using hgrow.size

end Edit

/-! ## What a capture emits -/

namespace Lower

/-- A captured value is a reference to what its field is for, by their types. -/
def LoadsFirst (f : Func) (v : ValueId) (field : Ty) : Prop :=
  (f.value? v).bind (·.ty.pointee?) = some field

instance (f : Func) (v : ValueId) (field : Ty) : Decidable (LoadsFirst f v field) :=
  inferInstanceAs (Decidable (_ = _))

/-- The ops that get what is stored of a captured value, and the value they leave it in. -/
inductive Fetched (f : Func) (look : OpId → Option Op) (v : ValueId) (field : Ty) :
    ValueId → List OpId → Prop
  | plain : ¬ LoadsFirst f v field → Fetched f look v field v []
  | loaded {x : OpId} {u : ValueId} : LoadsFirst f v field →
      Func.IsOp look x (.instr .load) [v] [u] → f.values.size ≤ u.index →
      Fetched f look v field u [x]

/-- The ops that store captured values in the fields from `index` on. The values they define are
new in `f`. -/
inductive FieldCode (f : Func) (look : OpId → Option Op) (env : ValueId) :
    Nat → List (ValueId × Ty) → List OpId → Prop
  | nil {index : Nat} : FieldCode f look env index [] []
  | cons {index : Nat} {v u w : ValueId} {field : Ty} {rest : List (ValueId × Ty)}
      {fetch ops : List OpId} {ref store : OpId} : Fetched f look v field u fetch →
      Func.IsOp look ref (.instr (.fieldRef index)) [env] [w] → u ≠ w → f.values.size ≤ w.index →
      Func.IsOp look store (.instr .store) [u, w] [] → FieldCode f look env (index + 1) rest ops →
      FieldCode f look env index ((v, field) :: rest) (fetch ++ ref :: store :: ops)

section

variable {stop : Prop} {f₀ f : Func} {look look' : OpId → Option Op} {b : BlockId}
  {pre post ops : List OpId} {x : OpId} {env v u : ValueId} {field : Ty}

theorem Fetched.mono (h : Fetched f look v field u ops)
    (hl : ∀ x ∈ ops, ∀ d, look x = some d → look' x = some d) : Fetched f look' v field u ops := by
  cases h with
  | plain hp => exact .plain hp
  | loaded hp hx hu => exact .loaded hp (hx.mono (hl _ (by simp))) hu

theorem FieldCode.mono {index : Nat} {l : List (ValueId × Ty)}
    (h : FieldCode f look env index l ops)
    (hl : ∀ x ∈ ops, ∀ d, look x = some d → look' x = some d) :
    FieldCode f look' env index l ops := by
  induction h with
  | nil => exact .nil
  | cons hfetch href hne hw hstore _ ih =>
    exact .cons (hfetch.mono fun x hx => hl x (by simp [hx])) (href.mono (hl _ (by simp))) hne hw
      (hstore.mono (hl _ (by simp))) (ih fun x hx => hl x (by simp [hx]))

/-- The ops of all fields are emitted in a row. -/
theorem storeFields_emits (l : List (ValueId × Ty)) (hl : ∀ q ∈ l, q.1.index < f₀.values.size)
    (hf : f₀.GrowsTo f) (h : f.Stands b pre x post) (index : Nat) :
    Meets stop (storeFields env index x l) f fun _ f' => f.Enlarges f' ∧ ∃ ops,
      (∃ bd, f'.block? b = some bd ∧ bd.ops = pre ++ x :: (ops ++ post)) ∧
      FieldCode f₀ f'.op? env index l ops := by
  induction l generalizing f pre x index with
  | nil => exact .pure ⟨.refl f, [], h.block, .nil⟩
  | cons q rest ih =>
    obtain ⟨v, field⟩ := q
    have hv : v.index < f₀.values.size := hl (v, field) (by simp)
    obtain ⟨info, hinfo⟩ : ∃ info, f₀.value? v = some info := ⟨_, Array.getElem?_eq_getElem hv⟩
    have hty : LoadsFirst f₀ v field ↔ info.ty.pointee? = some field := by
      simp [LoadsFirst, hinfo]
    have hstores {anchor : OpId} {stored : ValueId} {f₁ : Func} {pre₁ fetch : List OpId}
        (hext₁ : f.Enlarges f₁) (hstand₁ : f₁.Stands b pre₁ anchor post)
        (hlist : pre₁ ++ [anchor] = pre ++ x :: fetch)
        (hfetch : Fetched f₀ f₁.op? v field stored fetch) (hlt : stored.index < f₁.values.size) :
        Meets stop (do
          let ref ← Edit.emitAfter anchor (.instr (.fieldRef index)) [env] [.ref field]
          let store ← Edit.emitAfter ref (.instr .store) [stored, ← Edit.result ref] []
          storeFields env (index + 1) store rest) f₁ fun _ f' => f.Enlarges f' ∧ ∃ ops,
          (∃ bd, f'.block? b = some bd ∧ bd.ops = pre ++ x :: (ops ++ post)) ∧
          FieldCode f₀ f'.op? env index ((v, field) :: rest) ops := by
      refine .bind (Edit.emitAfter_stands hstand₁) ?_
      rintro ref f₂ ⟨hext₂, hstand₂, href, -⟩
      obtain ⟨rd, hrd, -, -, hr⟩ := id href
      refine .step (Edit.result_eq (v := ⟨f₁.values.size⟩) hrd (by simp [hr, Func.freshValues])) ?_
      refine .bind (Edit.emitAfter_stands hstand₂) ?_
      rintro store f₃ ⟨hext₃, hstand₃, hstore, -⟩
      have hext := (hext₁.trans hext₂).trans hext₃
      refine (ih (fun q hq => hl q (by simp [hq])) (hf.trans hext.grows) hstand₃
        (index + 1)).mono ?_
      rintro _ f₄ ⟨hext₄, ops, ⟨bd, hbd, hops⟩, hcode⟩
      refine ⟨hext.trans hext₄, fetch ++ ref :: store :: ops, ⟨bd, hbd, ?_⟩,
        .cons (w := ⟨f₁.values.size⟩)
        (hfetch.mono fun y _ => ((hext₂.trans hext₃).trans hext₄).ops y)
        (href.mono ((hext₃.trans hext₄).ops ref)) ?_ (hf.trans hext₁.grows).size_le
        (hstore.mono (hext₄.ops store)) hcode⟩
      · rw [hops, hlist]
        simp
      · rintro rfl
        exact lt_irrefl _ hlt
    refine .step (Edit.valueTy_eq (hf.value?_of_some hinfo)) ?_
    dsimp only
    split
    · rename_i hload
      refine .bind (Edit.emitAfter_stands h) ?_
      rintro load f₁ ⟨hext, hstand, hop, hsize⟩
      obtain ⟨d, hd, -, -, hr⟩ := id hop
      refine .step (Edit.result_eq (v := ⟨f.values.size⟩) hd (by simp [hr, Func.freshValues])) ?_
      exact hstores hext hstand (by simp) (.loaded (hty.mpr hload) hop hf.size_le) (by simp [hsize])
    · rename_i hload
      exact hstores (.refl f) h rfl (.plain (hty.not.mpr hload)) (lt_of_lt_of_le hv hf.size_le)

/-- The ops of a capture take its place. -/
theorem lowerCapture_emits {s : LowerState} {d : Op} {more : List ValueId} {fields : List Ty}
    {info : ValueInfo} (storage : CaptureStorage) (hf : s.func.Owned) (hd : s.func.op? x = some d)
    (hb : d.parent = some b) (hres : d.results = env :: more) (henv : s.func.value? env = some info)
    (hty : info.ty = .ref (.tuple fields)) (hlen : d.operands.length = fields.length)
    (hvals : ∀ v ∈ d.operands, v.index < s.func.values.size) :
    Meets stop (lowerCapture storage x) s fun _ s' => s.func.GrowsTo s'.func ∧ ∃ pre post code,
      s.func.opsIn b = pre ++ x :: post ∧ s'.func.opsIn b = pre ++ x :: (code ++ post) ∧
      Func.IsOp s'.func.op? x (.instr (.alloc (storage == .heap))) [] (env :: more) ∧
      FieldCode s.func s'.func.op? env 0 (d.operands.zip fields) code := by
  have hmem : x ∈ s.func.opsIn b := (hf.ops b x).mpr (by simp [Func.ownerOfOp, hd, hb])
  obtain ⟨pre, post, hlist⟩ := List.append_of_mem hmem
  have honce := hlist ▸ hf.opsOnce b
  obtain ⟨bd, hbd⟩ : ∃ bd, s.func.block? b = some bd := by
    cases hbd : s.func.block? b with
    | none => simp [Func.opsIn, hbd] at hmem
    | some bd => exact ⟨bd, rfl⟩
  have hops : bd.ops = pre ++ x :: post := by simpa [Func.opsIn, hbd] using hlist
  refine .editStep (Edit.getOp_eq hd) ?_
  simp only [hres]
  refine .editStep (Edit.valueTy_eq henv) ?_
  simp only [hty, Ty.pointee?, hlen, ne_eq, not_true_eq_false, if_false]
  refine .editStep (Edit.modifyOp_eq hd _) ?_
  have hd₁ := (s.func.op?_atOp x (fun d => { d with kind := .instr (.alloc (storage == .heap)) }) x)
  rw [if_pos rfl, hd] at hd₁
  refine .editStep (Edit.modifyOp_eq hd₁ _) ?_
  generalize hf₁ : (s.func.atOp x _).atOp x _ = f₁
  have hx : f₁.op? x =
      some { d with kind := .instr (.alloc (storage == .heap)), operands := [] } := by
    rw [← hf₁, Func.op?_atOp, if_pos rfl, hd₁]
    rfl
  have hgrow : s.func.GrowsTo f₁ := by
    subst hf₁
    exact ⟨[], rfl, rfl, rfl, by simp [Func.atOp], by simp [Func.atOp]⟩
  have hknown (y : OpId) (hy : y ∈ pre) : y.index < f₁.ops.size := by
    obtain ⟨yd, hyd⟩ := hf.exists_op (b := b) (x := y) (by simp [hlist, hy])
    exact lt_of_lt_of_le (s.func.op?_size hyd) hgrow.ops_le
  have hstand : f₁.Stands b pre x post :=
    ⟨⟨_, hx, hb⟩, ⟨bd, by rw [← hf₁]; simpa using hbd, hops⟩,
      fun hpre => (List.nodup_append.mp honce).2.2 x hpre x (by simp) rfl, hknown⟩
  refine .edit (storeFields_emits (d.operands.zip fields) ?_ hgrow hstand 0) ?_
  · exact fun q hq => hvals q.1 (List.of_mem_zip hq).1
  · rintro _ f' ⟨hext, code, ⟨bd', hbd', hops'⟩, hcode⟩
    exact ⟨hgrow.trans hext.grows, pre, post, code, hlist, by simp [Func.opsIn, hbd', hops'],
      ⟨_, hext.ops _ _ hx, rfl, rfl, hres⟩, hcode⟩

end

end Lower

/-! ## What the ops do -/

namespace Machine

variable {p : Program} {fr fr' fr'' : Frame} {s s' s'' : Store} {ops ops' : List OpId} {op : OpId}

/-- A run that comes to the ops goes through all of them, from one frame and store to another. -/
def Traverses (p : Program) (ops : List OpId) (fr : Frame) (s : Store) (fr' : Frame)
    (s' : Store) : Prop :=
  ∀ limit budget callers rest,
    runWithin p limit (budget + ops.length) { fr with rest := ops ++ rest } callers s =
      runWithin p limit budget { fr' with rest } callers s'

theorem Traverses.nil : Traverses p [] fr s fr s := fun _ _ _ _ => rfl

theorem Traverses.append (h : Traverses p ops fr s fr' s') (h' : Traverses p ops' fr' s' fr'' s'') :
    Traverses p (ops ++ ops') fr s fr'' s'' := by
  intro limit budget callers rest
  rw [List.length_append, add_comm ops.length, ← add_assoc, List.append_assoc, h, h']

theorem bind_lift {α β : Type} {x : Except RunError α} {a : α} {k : α → Exec β} (h : x = .ok a) :
    ((liftM x : Exec α) >>= k) s = k a s := by
  subst h
  rfl

/-- One instruction that goes on to the next op. -/
theorem Traverses.instr {d : Op} {i : Instr} (hd : fr.func.op? op = some d) (hk : d.kind = .instr i)
    (hrun : ∀ rest, runInstr p { fr with rest } op d i (counted s) =
    .ok (.next { fr' with rest }) s') :
    Traverses p [op] fr s fr' s' := by
  intro limit budget callers rest
  rw [List.length_singleton, runWithin_succ rfl]
  have hnode : (RunError.ofNode (fr.func.op? op)) = .ok d := by rw [hd, RunError.ofNode]
  have hop : runOp p { fr with rest } op (counted s) = .ok (.next { fr' with rest }) s' := by
    unfold runOp
    refine (bind_lift hnode).trans ?_
    simp only [hk]
    exact hrun rest
  have hstep : step p { fr with rest } callers op (counted s) =
      .ok (.running { fr' with rest } callers) s' := by
    unfold step
    refine (bind_of_ok hop).trans ?_
    rw [advance]
    rfl
  exact bind_of_ok hstep

section

variable {env v u w : ValueId} {results : List ValueId} {info : ValueInfo} {ptr : Pointer}

theorem Traverses.alloc {heap : Bool} {ty : Ty}
    (hop : Func.IsOp fr.func.op? op (.instr (.alloc heap)) [] (env :: results))
    (henv : fr.func.value? env = some info) (hty : info.ty.pointee? = some ty) :
    Traverses p [op] fr s { fr with values := fr.values.insert env (.ref ⟨s.heap.size, []⟩) }
      { s with heap := s.heap.push (.initial ty), steps := s.steps + 1 } := by
  obtain ⟨d, hd, hk, ho, hr⟩ := hop
  refine .instr hd hk fun rest => ?_
  have hinit : initialValue { fr with rest } d = .ok (.initial ty) := by
    simp [initialValue, ho, hr, Frame.typeOf, RunError.ofNode, henv, hty]
  simp only [runInstr, hinit, Frame.define, hr]
  rfl

theorem Traverses.load {x : Value} (hop : Func.IsOp fr.func.op? op (.instr .load) [v] [u])
    (hv : fr.values.get? v = some (.ref ptr)) (hread : s.heap.read ptr = .ok x) :
    Traverses p [op] fr s { fr with values := fr.values.insert u x }
      { s with steps := s.steps + 1 } := by
  obtain ⟨d, hd, hk, ho, hr⟩ := hop
  refine .instr hd hk fun rest => ?_
  have hptr : Frame.pointer { fr with rest } op d 0 = .ok ptr := by
    simp [Frame.pointer, Frame.operand, Frame.get, ho, hv]
    rfl
  refine (bind_lift hptr).trans ?_
  refine (bind_of_ok (read_of_ok (s := counted s) hread)).trans ?_
  simp only [Frame.define, hr]
  rfl

theorem Traverses.fieldRef {index : Nat}
    (hop : Func.IsOp fr.func.op? op (.instr (.fieldRef index)) [v] [w])
    (hv : fr.values.get? v = some (.ref ptr)) :
    Traverses p [op] fr s { fr with values := fr.values.insert w (.ref (ptr.field index)) }
      { s with steps := s.steps + 1 } := by
  obtain ⟨d, hd, hk, ho, hr⟩ := hop
  refine .instr hd hk fun rest => ?_
  have hptr : Frame.pointer { fr with rest } op d 0 = .ok ptr := by
    simp [Frame.pointer, Frame.operand, Frame.get, ho, hv]
    rfl
  simp only [runInstr, hptr, Frame.define, hr]
  rfl

theorem Traverses.store {x : Value} {heap : Heap}
    (hop : Func.IsOp fr.func.op? op (.instr .store) [u, w] [])
    (hu : fr.values.get? u = some x) (hw : fr.values.get? w = some (.ref ptr))
    (hwrite : s.heap.write ptr x = .ok heap) :
    Traverses p [op] fr s fr { s with heap, steps := s.steps + 1 } := by
  obtain ⟨d, hd, hk, ho, hr⟩ := hop
  refine .instr hd hk fun rest => ?_
  have hptr : Frame.pointer { fr with rest } op d 1 = .ok ptr := by
    simp [Frame.pointer, Frame.operand, Frame.get, ho, hw]
    rfl
  have hval : Frame.operand { fr with rest } op d 0 = .ok x := by
    simp [Frame.operand, Frame.get, ho, hu]
  refine (bind_lift hval).trans ((bind_lift hptr).trans ?_)
  exact bind_of_ok (write_of_ok (s := counted s) hwrite)

end

/-- What a capture keeps of a value: what it refers to if its type is a reference to the type of the
field, and the value itself otherwise. -/
def Captured (f : Func) (values : Table ValueId Value) (heap : Heap) (q : ValueId × Ty)
    (x : Value) :
    Prop :=
  (Lower.LoadsFirst f q.1 q.2 → ∃ ptr, values.get? q.1 = some (.ref ptr) ∧ heap.read ptr = .ok x) ∧
    (¬ Lower.LoadsFirst f q.1 q.2 → values.get? q.1 = some x)

/-- The tables have the same values for the ids that the function knows. -/
def SameValues (f : Func) (values values' : Table ValueId Value) : Prop :=
  ∀ v : ValueId, v.index < f.values.size → values'.get? v = values.get? v

theorem SameValues.insert {f : Func} {values values' : Table ValueId Value} {w : ValueId}
    (h : SameValues f values values') (hw : f.values.size ≤ w.index) (x : Value) :
    SameValues f values (values'.insert w x) := by
  intro v hv
  rw [Table.get?_insert_of_ne _ _ (fun heq => by subst heq; omega), h v hv]

end Machine

namespace Heap

variable {h : Heap} {ptr : Pointer} {x y : Value}

theorem read_push (hr : h.read ptr = .ok x) : read (h.push y) ptr = .ok x := by
  cases hc : h[ptr.cell]? with
  | none => simp [read, hc] at hr
  | some v =>
    have hlt := (Array.getElem?_eq_some_iff.mp hc).1
    have hpush : (h.push y)[ptr.cell]? = some v := by
      rw [Array.getElem?_push, if_neg (by omega), hc]
    rwa [read_of_cell hpush, ← read_of_cell hc]

theorem write_push_field {done rest : List Value} :
    write (h.push (.tuple (done ++ y :: rest))) (Pointer.field ⟨h.size, []⟩ done.length) x =
      .ok (h.push (.tuple (done ++ x :: rest))) := by
  have hset : (h.push (.tuple (done ++ y :: rest))).setIfInBounds h.size
    (.tuple (done ++ x :: rest)) =
      h.push (.tuple (done ++ x :: rest)) := by
    refine Array.ext_getElem? fun i => ?_
    simp only [Array.getElem?_setIfInBounds, Array.getElem?_push, Array.size_push]
    grind
  simp [write, Pointer.field, Value.replace, Functor.map, Except.map, hset]

end Heap

namespace Lower

open Machine

variable {p : Program} {f : Func} {look : OpId → Option Op} {fr : Frame} {s : Store}
  {v u env : ValueId} {field : Ty} {ops : List OpId} {values : Table ValueId Value} {heap : Heap}

theorem Fetched.traverses {x : Value} (hcode : Fetched f look v field u ops)
    (hlook : fr.func.op? = look) (hsame : SameValues f values fr.values)
    (hv : v.index < f.values.size) (hx : Captured f values heap (v, field) x)
    (hread : ∀ ptr x, heap.read ptr = .ok x → s.heap.read ptr = .ok x) :
    ∃ values', Traverses p ops fr s { fr with values := values' }
        { s with steps := s.steps + ops.length } ∧
      SameValues f values values' ∧ values'.get? u = some x := by
  cases hcode with
  | plain hp => exact ⟨fr.values, .nil, hsame, (hsame v hv).trans (hx.2 hp)⟩
  | loaded hp hop hu =>
    obtain ⟨ptr, hptr, hr⟩ := hx.1 hp
    exact ⟨_, .load (hlook ▸ hop) ((hsame v hv).trans hptr) (hread _ _ hr), hsame.insert hu x,
      by simp⟩

/-- With the fields before `index` filled, the ops fill the others. -/
theorem FieldCode.traverses {index : Nat} {l : List (ValueId × Ty)}
    (hcode : FieldCode f look env index l ops) (hlook : fr.func.op? = look)
    (hsame : SameValues f values fr.values) (henv : env.index < f.values.size)
    (hl : ∀ q ∈ l, q.1.index < f.values.size)
    (href : values.get? env = some (.ref ⟨heap.size, []⟩))
    {done fill xs : List Value} (hdone : done.length = index) (hfill : fill.length = l.length)
    (hxs : List.Forall₂ (Captured f values heap) l xs)
    (hs : s.heap = heap.push (.tuple (done ++ fill))) :
    ∃ values', Traverses p ops fr s { fr with values := values' }
        { s with heap := heap.push (.tuple (done ++ xs)), steps := s.steps + ops.length } ∧
      SameValues f values values' := by
  induction hcode generalizing fr s done fill xs with
  | nil =>
    obtain rfl := List.forall₂_nil_left_iff.mp hxs
    obtain rfl := List.length_eq_zero_iff.mp hfill
    exact ⟨fr.values, by rw [← hs]; exact .nil, hsame⟩
  | cons hfetch hrefOp hne hw hstore hrest ih =>
    rename_i index v u w field rest fetch code ref store
    cases hxs with
    | cons hx hxs =>
      rename_i x xs
      obtain ⟨y, fill, rfl⟩ := List.exists_cons_of_length_eq_add_one hfill
      obtain ⟨values₁, ht₁, hsame₁, hu⟩ := hfetch.traverses (p := p) (s := s) hlook hsame
        (hl (v, field) (by simp)) hx fun ptr x hr => by rw [hs]; exact Heap.read_push hr
      have ht₂ : Traverses p [ref] { fr with values := values₁ }
          { s with steps := s.steps + fetch.length } _ _ :=
        .fieldRef (hlook ▸ hrefOp) ((hsame₁ env henv).trans href)
      have hwrite : s.heap.write (Pointer.field ⟨heap.size, []⟩ index) x =
          .ok (heap.push (.tuple (done ++ x :: fill))) := by
        rw [hs, ← hdone]
        exact Heap.write_push_field
      have ht₃ : Traverses p [store] { fr with values := values₁.insert w _ }
          { s with steps := s.steps + fetch.length + 1 } _ _ :=
        .store (hlook ▸ hstore) ((Table.get?_insert_of_ne _ _ hne.symm).trans hu)
          (Table.get?_insert_self ..) hwrite
      obtain ⟨values₂, ht₄, hsame₂⟩ := @ih { fr with values := values₁.insert w _ }
        { s with
          heap := heap.push (.tuple (done ++ x :: fill)), steps := s.steps + fetch.length + 1 + 1 }
        hlook (hsame₁.insert hw _) (fun q hq => hl q (by simp [hq])) (done ++ [x]) fill xs
        (by simp [hdone]) (by simpa using hfill) hxs (by simp)
      refine ⟨values₂, ?_, hsame₂⟩
      have ht := ht₁.append (ht₂.append (ht₃.append ht₄))
      simpa [Nat.add_assoc, Nat.add_comm, Nat.add_left_comm] using ht

/-- A capture can be lowered, and the ops that stand in its place give its result a new cell with
the tuple of what is captured. What is captured is what the values are once the result is bound: the
allocation comes first, also for a capture of its own result. -/
theorem lowerCapture_binds {s : LowerState} {op : OpId} {d : Op} {b : BlockId} {more : List ValueId}
    {fields : List Ty} {info : ValueInfo} (storage : CaptureStorage) (hf : s.func.Owned)
    (hd : s.func.op? op = some d) (hb : d.parent = some b) (hres : d.results = env :: more)
    (henv : s.func.value? env = some info) (hty : info.ty = .ref (.tuple fields))
    (hlen : d.operands.length = fields.length)
    (hvals : ∀ v ∈ d.operands, v.index < s.func.values.size) :
    ∃ s' pre post code, lowerCapture storage op s = .ok () s' ∧ s.func.GrowsTo s'.func ∧
      s.func.opsIn b = pre ++ op :: post ∧ s'.func.opsIn b = pre ++ op :: (code ++ post) ∧
      ∀ (p : Program) (fr : Frame) (st : Store) (xs : List Value),
        (∀ x ∈ op :: code, fr.func.op? x = s'.func.op? x) → fr.func.value? env = some info →
        List.Forall₂ (Captured s.func (fr.values.insert env (.ref ⟨st.heap.size, []⟩)) st.heap)
          (d.operands.zip fields) xs →
        ∃ values, Traverses p (op :: code) fr st { fr with values }
            { st with heap := st.heap.push (.tuple xs), steps := st.steps + (code.length + 1) } ∧
          values.get? env = some (.ref ⟨st.heap.size, []⟩) ∧
          ∀ v, v.index < s.func.values.size → v ≠ env → values.get? v = fr.values.get? v := by
  have hemits : Meets False _ _ _ := lowerCapture_emits storage hf hd hb hres henv hty hlen hvals
  obtain ⟨_, s', hlow, hgrow, pre, post, code, hpre, hpost, hop, hcode⟩ := hemits.result
  refine ⟨s', pre, post, code, hlow, hgrow, hpre, hpost, fun p fr st xs hops hinfo hxs => ?_⟩
  have henv' : env.index < s.func.values.size := (Array.getElem?_eq_some_iff.mp henv).1
  have hinit : Value.initial (.tuple fields) = .tuple ([] ++ fields.map .initial) := by
    simp [Value.initial, Value.initials_eq]
  have halloc : Traverses p [op] fr st
      { fr with values := fr.values.insert env (.ref ⟨st.heap.size, []⟩) }
      { st with
        heap := st.heap.push (.tuple ([] ++ fields.map .initial)), steps := st.steps + 1 } :=
    hinit ▸ .alloc (hop.mono fun d hd => (hops op (by simp)).trans hd) hinfo (by rw [hty]; rfl)
  have hfields : FieldCode s.func fr.func.op? env 0 (d.operands.zip fields) code :=
    hcode.mono fun x hx d hd => (hops x (by simp [hx])).trans hd
  obtain ⟨values, ht, hsame⟩ := @FieldCode.traverses p _ _
    { fr with values := fr.values.insert env (.ref ⟨st.heap.size, []⟩) }
    { st with heap := st.heap.push (.tuple ([] ++ fields.map .initial)), steps := st.steps + 1 }
    env code _ st.heap 0 _ hfields rfl (fun _ _ => rfl) henv'
    (fun q hq => hvals q.1 (List.of_mem_zip hq).1) (Table.get?_insert_self ..) [] _ xs rfl
    (by simp [hlen]) hxs rfl
  refine ⟨values, ?_, (hsame env henv').trans (Table.get?_insert_self ..), fun v hv hne =>
    (hsame v hv).trans (Table.get?_insert_of_ne _ _ hne.symm)⟩
  simpa [Nat.add_assoc, Nat.add_comm, Nat.add_left_comm] using halloc.append ht

/-- A capture that does not list its own result can be lowered, and the ops that stand in its place
give the result a new cell. The cell holds a tuple of what is captured from the values and the heap
before them, and no other cell is changed. -/
theorem lowerCapture_fills {s : LowerState} {op : OpId} {d : Op} {b : BlockId} {more : List ValueId}
    {fields : List Ty} {info : ValueInfo} (storage : CaptureStorage) (hf : s.func.Owned)
    (hd : s.func.op? op = some d) (hb : d.parent = some b) (hres : d.results = env :: more)
    (henv : s.func.value? env = some info) (hty : info.ty = .ref (.tuple fields))
    (hlen : d.operands.length = fields.length)
    (hvals : ∀ v ∈ d.operands, v.index < s.func.values.size) (hown : env ∉ d.operands) :
    ∃ s' pre post code, lowerCapture storage op s = .ok () s' ∧ s.func.GrowsTo s'.func ∧
      s.func.opsIn b = pre ++ op :: post ∧ s'.func.opsIn b = pre ++ op :: (code ++ post) ∧
      ∀ (p : Program) (fr : Frame) (st : Store) (xs : List Value),
        (∀ x ∈ op :: code, fr.func.op? x = s'.func.op? x) → fr.func.value? env = some info →
        List.Forall₂ (Captured s.func fr.values st.heap) (d.operands.zip fields) xs →
        ∃ values, Traverses p (op :: code) fr st { fr with values }
            { st with heap := st.heap.push (.tuple xs), steps := st.steps + (code.length + 1) } ∧
          values.get? env = some (.ref ⟨st.heap.size, []⟩) ∧
          ∀ v, v.index < s.func.values.size → v ≠ env → values.get? v = fr.values.get? v := by
  obtain ⟨s', pre, post, code, hlow, hgrow, hpre, hpost, hrun⟩ :=
    lowerCapture_binds storage hf hd hb hres henv hty hlen hvals
  refine ⟨s', pre, post, code, hlow, hgrow, hpre, hpost, fun p fr st xs hops hinfo hxs => ?_⟩
  obtain ⟨hlength, hxs⟩ := List.forall₂_iff_zip.mp hxs
  refine hrun p fr st xs hops hinfo (List.forall₂_iff_zip.mpr ⟨hlength, fun {q x} hq => ?_⟩)
  have hne : env ≠ q.1 := fun h => hown (h ▸ (List.of_mem_zip (List.of_mem_zip hq).1).1)
  have hx := hxs hq
  unfold Captured at hx ⊢
  rwa [Table.get?_insert_of_ne _ _ hne]

/-- A capture of what a variable holds and of a number. -/
def counterCapture : Func :=
  Source.built "f" ⟨[], .i32⟩ [.var .i32 none (some "count"), .constant (.int 7) .i64 (some "step"),
    .capture [.named "count", .named "step"] [.i32, .i64] (some "env")]

theorem counterCapture_owned : counterCapture.Owned :=
  (Func.Reachable.built "f" ⟨[], .i32⟩ _ (leaves_left (by decide +kernel))).sound.owned

/-- A frame in which the variable is the cell 0 and the number is 7. -/
def counterFrame (func : Func) : Frame where
  func
  values := (({} : Table ValueId Value).insert ⟨0⟩ (.ref ⟨0, []⟩)).insert ⟨1⟩ (.int 7)
  block := ⟨0⟩

/-- With 5 in the variable, the environment is a second cell that holds 5 and 7. -/
theorem lowerCapture_fills_counterCapture : ∃ s' code,
    lowerCapture .heap ⟨2⟩ { func := counterCapture, stats := { function := "f" } } = .ok () s' ∧
    ∃ values, Traverses { name := "m" } (⟨2⟩ :: code) (counterFrame s'.func) { heap := #[.int 5] }
        { counterFrame s'.func with values }
        { heap := #[.int 5, .tuple [.int 5, .int 7]], steps := code.length + 1 } ∧
      values.get? ⟨2⟩ = some (.ref ⟨1, []⟩) := by
  have hop : counterCapture.op? ⟨2⟩ =
      some ⟨.construct .capture, [⟨0⟩, ⟨1⟩], [⟨2⟩], [], some ⟨0⟩, none, true⟩ := by decide +kernel
  have hinfo : counterCapture.value? ⟨2⟩ =
      some ⟨.ref (.tuple [.i32, .i64]), .opResult ⟨2⟩ 0⟩ := by decide +kernel
  have hsize : counterCapture.values.size = 3 := by decide +kernel
  have hload : LoadsFirst counterCapture ⟨0⟩ .i32 := by decide +kernel
  have hplain : ¬ LoadsFirst counterCapture ⟨1⟩ .i64 := by decide +kernel
  have howned := counterCapture_owned
  generalize counterCapture = f at *
  obtain ⟨s', pre, post, code, hlow, hgrow, -, -, hrun⟩ :=
    lowerCapture_fills (s := { func := f, stats := { function := "f" } }) .heap howned hop rfl rfl
      hinfo rfl rfl (by simp [hsize]) (by simp)
  have hxs : List.Forall₂ (Captured f (counterFrame s'.func).values #[.int 5])
      [(⟨0⟩, .i32), (⟨1⟩, .i64)] [.int 5, .int 7] :=
    .cons ⟨fun _ => ⟨⟨0, []⟩, rfl, rfl⟩, fun h => (h hload).elim⟩
      (.cons ⟨fun h => absurd h hplain, fun _ => rfl⟩ .nil)
  obtain ⟨values, ht, henv, -⟩ := hrun { name := "m" } (counterFrame s'.func)
    { heap := #[.int 5] } _
    (fun _ _ => rfl) (hgrow.value?_of_some hinfo) hxs
  exact ⟨s', code, hlow, values, by simpa using ht, henv⟩

/-- A capture of its own result. -/
def selfCapture : Func :=
  Source.built "f" ⟨[], .void⟩ [.capture [.id ⟨0⟩] [.i32] none]

theorem selfCapture_owned : selfCapture.Owned :=
  (Func.Reachable.built "f" ⟨[], .void⟩ _ (leaves_left (by decide +kernel))).sound.owned

/-- With 5 in the result of before, the environment holds the reference to itself and not 5. -/
theorem lowerCapture_takes_new_result : ∃ s' code,
    lowerCapture .heap ⟨0⟩ { func := selfCapture, stats := { function := "f" } } = .ok () s' ∧
    Captured selfCapture (({} : Table ValueId Value).insert ⟨0⟩ (.int 5)) #[] (⟨0⟩, .i32) (.int 5) ∧
    ∃ values, Traverses { name := "m" } (⟨0⟩ :: code)
        { func := s'.func, block := ⟨0⟩
          values := ({} : Table ValueId Value).insert ⟨0⟩ (.int 5) } {}
        { func := s'.func, values, block := ⟨0⟩ }
        { heap := #[.tuple [.ref ⟨0, []⟩]], steps := code.length + 1 } := by
  have hop : selfCapture.op? ⟨0⟩ =
      some ⟨.construct .capture, [⟨0⟩], [⟨0⟩], [], some ⟨0⟩, none, true⟩ := by decide +kernel
  have hinfo : selfCapture.value? ⟨0⟩ = some ⟨.ref (.tuple [.i32]), .opResult ⟨0⟩ 0⟩ := by
    decide +kernel
  have hsize : selfCapture.values.size = 1 := by decide +kernel
  have hplain : ¬ LoadsFirst selfCapture ⟨0⟩ .i32 := by decide +kernel
  have howned := selfCapture_owned
  generalize selfCapture = f at *
  obtain ⟨s', pre, post, code, hlow, hgrow, -, -, hrun⟩ :=
    lowerCapture_binds (s := { func := f, stats := { function := "f" } }) .heap howned hop rfl rfl
      hinfo rfl rfl (by simp [hsize])
  obtain ⟨values, ht, -⟩ := hrun { name := "m" }
    { func := s'.func, values := ({} : Table ValueId Value).insert ⟨0⟩ (.int 5), block := ⟨0⟩ } {}
    [.ref ⟨0, []⟩] (fun _ _ => rfl) (hgrow.value?_of_some hinfo)
    (.cons ⟨fun h => absurd h hplain, fun _ => rfl⟩ .nil)
  exact ⟨s', code, hlow, ⟨fun h => absurd h hplain, fun _ => rfl⟩, values, by simpa using ht⟩

end Lower

end Unnest
