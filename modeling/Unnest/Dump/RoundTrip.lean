import Unnest.Dump.Functions
/-!
# Reading back what was written

For everything that dumps hold there is one law: `ofDump?` reads back what `toDump` wrote. The laws
for lists and optional parts take the law of the part as a hypothesis; that of functions is the
last of the module.
-/

namespace Unnest

namespace Dump

/-- A list is read back item by item. -/
theorem listOf?_map {α : Type} {read : Dump → Option α} {write : α → Dump}
    (h : ∀ a, read (write a) = some a) (as : List α) :
    listOf? read (.list (as.map write)) = some as := by
  induction as with
  | nil => rfl
  | cons a rest ih =>
    simp only [listOf?, List.map_cons, List.mapM_cons, h] at ih ⊢
    rw [ih]
    rfl

/-- An optional part is read back unless its own dump looks like nothing. -/
theorem optional?_optional {α : Type} {read : Dump → Option α} {write : α → Dump}
    (h : ∀ a, read (write a) = some a) (hn : ∀ a, write a ≠ null) (a : Option α) :
    optional? read (optional write a) = some a := by
  cases a with
  | none => rfl
  | some a =>
    rw [optional]
    have ha := hn a
    revert ha
    rw [optional?.eq_def]
    split
    · intro ha; exact absurd ‹_› ha
    · intro _; rw [h]; rfl

/-- The first field of a record is found at once, any other in the rest. -/
theorem field_cons (name other : String) (d : Dump) (rest : List (String × Dump)) :
    (record ((other, d) :: rest)).field name =
      if name == other then d else (record rest).field name := by
  simp only [field, List.lookup_cons]
  cases name == other <;> rfl

@[simp] theorem nat?_ofNat (n : Nat) : (ofNat n).nat? = some n := by
  simp [ofNat, nat?]

end Dump

mutual

theorem Ty.ofDump?_toDump : ∀ t : Ty, Ty.ofDump? t.toDump = some t
  | .void | .bool | .i32 | .i64 | .f64 | .string | .handle | .null | .any => rfl
  | .ref inner => by
    simp only [Ty.toDump, Dump.tagged, Ty.ofDump?, Ty.ofDump?_toDump inner, Option.map_some]
  | .tuple fields => by
    simp only [Ty.toDump, Dump.tagged, Ty.ofDump?, Ty.ofDumps?_toDumps fields, Option.map_some]
  | .function params ret => by
    simp [Ty.toDump, Dump.tagged, Ty.ofDump?, Ty.ofDumps?_toDumps params, Ty.ofDump?_toDump ret]
  | .named name => by simp only [Ty.toDump, Dump.tagged, Ty.ofDump?]

theorem Ty.ofDumps?_toDumps : ∀ ts : List Ty, Ty.ofDumps? (Ty.toDumps ts) = some ts
  | [] => rfl
  | t :: rest => by
    simp [Ty.toDumps, Ty.ofDumps?, Ty.ofDump?_toDump t, Ty.ofDumps?_toDumps rest]

end

theorem Literal.ofDump?_toDump (c : Literal) : Literal.ofDump? c.toDump = some c := by
  cases c <;> simp [Literal.toDump, Dump.tagged, Literal.ofDump?]

theorem Callee.ofDump?_toDump (c : Callee) : Callee.ofDump? c.toDump = some c := by
  cases c <;> simp [Callee.toDump, Dump.tagged, Callee.ofDump?]

@[simp] theorem OpId.ofDump?_toDump (id : OpId) : OpId.ofDump? id.toDump = some id := by
  simp [OpId.toDump, OpId.ofDump?]

@[simp] theorem BlockId.ofDump?_toDump (id : BlockId) : BlockId.ofDump? id.toDump = some id := by
  simp [BlockId.toDump, BlockId.ofDump?]

@[simp] theorem RegionId.ofDump?_toDump (id : RegionId) :
    RegionId.ofDump? id.toDump = some id := by
  simp [RegionId.toDump, RegionId.ofDump?]

@[simp] theorem ValueId.ofDump?_toDump (id : ValueId) : ValueId.ofDump? id.toDump = some id := by
  simp [ValueId.toDump, ValueId.ofDump?]

@[simp] theorem TypeToken.ofDump?_toDump (id : TypeToken) :
    TypeToken.ofDump? id.toDump = some id := by
  simp [TypeToken.toDump, TypeToken.ofDump?]

theorem Ty.toDump_ne_null (t : Ty) : t.toDump ≠ .null := by
  cases t <;> simp [Ty.toDump, Dump.tagged]

theorem Span.ofDump?_toDump (s : Span) : Span.ofDump? s.toDump = some s := by
  simp [Span.toDump, Span.ofDump?, Dump.field_cons]

theorem Dump.optional?_str (label : Option String) :
    Dump.optional? Dump.str? (Dump.optional Dump.str label) = some label :=
  Dump.optional?_optional (fun (_ : String) => rfl) (fun _ => Dump.noConfusion) label

theorem switchCases_map (cases : List (Int64 × BlockId)) :
    Dump.listOf? switchCase? (.list (cases.map fun c => .list [.int c.1.toInt, c.2.toDump])) =
      some cases :=
  Dump.listOf?_map (fun c => by simp [switchCase?, Dump.int64?]) cases

theorem Construct.ofDump?_toDump (c : Construct) :
    OpKind.ofDump? c.toDump = some (.construct c) := by
  cases c <;>
    simp [Construct.toDump, oneField, Dump.tagged, OpKind.ofDump?, Construct.ofName?,
      Construct.ofFields?, Dump.field_cons, Dump.optional?_str, Dump.str?,
      Dump.optional?_optional Ty.ofDump?_toDump Ty.toDump_ne_null]

theorem Instr.ofDump?_toDump (i : Instr) : OpKind.ofDump? i.toDump = some (.instr i) := by
  cases i <;>
    simp [Instr.toDump, oneField, Dump.tagged, OpKind.ofDump?, Construct.ofName?, Instr.ofName?,
      Construct.ofFields?, Instr.ofFields?, Dump.field_cons, Dump.str?, Dump.bool?,
      Literal.ofDump?_toDump, BinOp.ofDump?_toDump,
      Dump.optional?_optional TypeToken.ofDump?_toDump (by simp [TypeToken.toDump, Dump.ofNat])]

theorem Transfer.ofDump?_toDump (t : Transfer) :
    OpKind.ofDump? t.toDump = some (.transfer t) := by
  cases t <;>
    simp [Transfer.toDump, oneField, Dump.tagged, OpKind.ofDump?, Construct.ofName?,
      Instr.ofName?, Transfer.ofName?, Construct.ofFields?, Instr.ofFields?, Transfer.ofFields?,
      Dump.field_cons, Callee.ofDump?_toDump, switchCases_map,
      Dump.optional?_optional BlockId.ofDump?_toDump (by simp [BlockId.toDump, Dump.ofNat])]

theorem OpKind.ofDump?_toDump (k : OpKind) : OpKind.ofDump? k.toDump = some k := by
  cases k with
  | construct c => exact c.ofDump?_toDump
  | instr i => exact i.ofDump?_toDump
  | transfer t => exact t.ofDump?_toDump

theorem Op.ofDump?_toDump (d : Op) : Op.ofDump? d.toDump = some d := by
  simp [Op.toDump, Op.ofDump?, Dump.field_cons, OpKind.ofDump?_toDump, Dump.bool?,
    Dump.listOf?_map ValueId.ofDump?_toDump, Dump.listOf?_map RegionId.ofDump?_toDump,
    Dump.optional?_optional BlockId.ofDump?_toDump (by simp [BlockId.toDump, Dump.ofNat]),
    Dump.optional?_optional Span.ofDump?_toDump (by simp [Span.toDump])]

theorem Block.ofDump?_toDump (d : Block) : Block.ofDump? d.toDump = some d := by
  simp [Block.toDump, Block.ofDump?, Dump.field_cons, Dump.bool?,
    Dump.listOf?_map OpId.ofDump?_toDump, Dump.listOf?_map ValueId.ofDump?_toDump,
    Dump.optional?_optional RegionId.ofDump?_toDump (by simp [RegionId.toDump, Dump.ofNat])]

theorem Region.ofDump?_toDump (d : Region) : Region.ofDump? d.toDump = some d := by
  simp [Region.toDump, Region.ofDump?, Dump.field_cons,
    Dump.listOf?_map BlockId.ofDump?_toDump,
    Dump.optional?_optional OpId.ofDump?_toDump (by simp [OpId.toDump, Dump.ofNat])]

theorem Origin.ofDump?_toDump (o : Origin) : Origin.ofDump? o.toDump = some o := by
  cases o <;> simp [Origin.toDump, Dump.tagged, Origin.ofDump?, Dump.field_cons]

theorem ValueInfo.ofDump?_toDump (d : ValueInfo) : ValueInfo.ofDump? d.toDump = some d := by
  simp [ValueInfo.toDump, ValueInfo.ofDump?, Dump.field_cons, Ty.ofDump?_toDump,
    Origin.ofDump?_toDump]

theorem Signature.ofDump?_toDump (s : Signature) : Signature.ofDump? s.toDump = some s := by
  simp [Signature.toDump, Signature.ofDump?, Dump.field_cons, Ty.ofDump?_toDump,
    Dump.listOf?_map Ty.ofDump?_toDump]

/-- A function is read back from its dump. -/
theorem Func.ofDump?_toDump (f : Func) : Func.ofDump? f.toDump = some f := by
  simp [Func.toDump, Func.ofDump?, Dump.field_cons, Dump.str?, Signature.ofDump?_toDump,
    Dump.listOf?_map Op.ofDump?_toDump, Dump.listOf?_map Block.ofDump?_toDump,
    Dump.listOf?_map Region.ofDump?_toDump, Dump.listOf?_map ValueInfo.ofDump?_toDump]

end Unnest
