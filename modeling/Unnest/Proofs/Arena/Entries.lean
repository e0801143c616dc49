import Mathlib
import Unnest.Func.Basic
/-!
# Entries of the tables of a function

`Entries` lists nodes of a function with what the tables hold for them, and for every value where
it comes from. Entries are added up, so that `Entries.op id d + e` is the entry of one op besides
others, and the order does not matter. `Arena f e` says that the tables of `f` hold the entries of
`e` and that no node occurs in `e` twice; what is changed at one node leaves the other entries as
they are.
-/

namespace Unnest

/-- Every entry is what a table holds for its key, and no key occurs twice. -/
structure Facts {κ α : Type} (look : κ → Option α) (m : Multiset (κ × α)) : Prop where
  holds : ∀ e ∈ m, look e.1 = some e.2
  nodup : (m.map Prod.fst).Nodup

namespace Facts

variable {κ α : Type} {look look' : κ → Option α} {m m' : Multiset (κ × α)} {k : κ} {a a' : α}

theorem as (h : Facts look m) (hm : m = m') : Facts look m' := hm ▸ h

theorem left (h : Facts look (m + m')) : Facts look m where
  holds e he := h.holds e (by simp [he])
  nodup := by
    have := h.nodup
    rw [Multiset.map_add] at this
    exact (Multiset.nodup_add.mp this).1

theorem right (h : Facts look (m + m')) : Facts look m' := (h.as (add_comm m m')).left

theorem ne_of_mem (h : Facts look ((k, a) ::ₘ m)) {e : κ × α} (he : e ∈ m) : e.1 ≠ k := by
  have := h.nodup
  rw [Multiset.map_cons, Multiset.nodup_cons] at this
  intro hk
  exact this.1 (Multiset.mem_map.mpr ⟨e, he, hk⟩)

/-- The entry of one key is replaced. -/
theorem update (h : Facts look ((k, a) ::ₘ m)) (hk : look' k = some a')
    (ho : ∀ x, x ≠ k → look' x = look x) : Facts look' ((k, a') ::ₘ m) where
  holds e he := by
    rcases Multiset.mem_cons.mp he with rfl | he
    · exact hk
    · rw [ho _ (h.ne_of_mem he), h.holds e (by simp [he])]
  nodup := by simpa using h.nodup

/-- Keys that the table did not hold are entered. -/
theorem insertAll (l : List (κ × α)) (h : Facts look m) (hl : (l.map Prod.fst).Nodup)
    (hn : ∀ e ∈ l, look e.1 = none) (hk : ∀ e ∈ l, look' e.1 = some e.2)
    (ho : ∀ x, look x ≠ none → look' x = look x) : Facts look' (l + m) where
  holds e he := by
    rcases Multiset.mem_add.mp he with he | he
    · exact hk e he
    · rw [ho _ (by simp [h.holds e he]), h.holds e he]
  nodup := by
    rw [Multiset.map_add, Multiset.nodup_add]
    refine ⟨by simpa using hl, h.nodup, ?_⟩
    rw [Multiset.disjoint_left]
    intro x hx hx'
    obtain ⟨e, he, rfl⟩ := Multiset.mem_map.mp hx
    obtain ⟨e', he', hee⟩ := Multiset.mem_map.mp hx'
    have := h.holds e' he'
    rw [hee, hn e he] at this
    cases this

section Positions

variable {i : κ → Nat} {table : Array α}

/-- What a table holds at one position is changed. -/
theorem modify (hix : i.Injective) {g : α → α}
    (h : Facts (fun x => table[i x]?) ((k, a) ::ₘ m)) :
    Facts (fun x => (table.modify (i k) g)[i x]?) ((k, g a) ::ₘ m) := by
  refine h.update ?_ fun x hx => ?_
  · have hk := h.holds (k, a) (by simp)
    simp only at hk
    simp [Array.getElem?_modify, hk]
  · have hne : i k ≠ i x := fun hi => hx (hix hi.symm)
    simp [Array.getElem?_modify, hne]

/-- Keys of the positions behind the end of a table are entered. -/
theorem append {n : Array α} {l : List (κ × α)} (hl : (l.map Prod.fst).Nodup)
    (hk : ∀ p ∈ l, table.size ≤ i p.1 ∧ n[i p.1 - table.size]? = some p.2)
    (h : Facts (fun x => table[i x]?) m) :
    Facts (fun x => (table ++ n)[i x]?) (l + m) := by
  refine h.insertAll l hl (fun p hp => ?_) (fun p hp => ?_) fun x hx => ?_
  · simpa using (hk p hp).1
  · rw [Array.getElem?_append_right (hk p hp).1, (hk p hp).2]
  · have hlt : i x < table.size := by simpa using hx
    exact Array.getElem?_append_left hlt

theorem push (hk : i k = table.size) (h : Facts (fun x => table[i x]?) m) :
    Facts (fun x => (table.push a)[i x]?) ((k, a) ::ₘ m) := by
  have := h.append (n := #[a]) (l := [(k, a)]) (by simp) (by simp [hk])
  simpa using this

end Positions

end Facts

theorem OpId.index_injective : OpId.index.Injective := by
  rintro ⟨_⟩ ⟨_⟩ h
  exact congrArg _ h

theorem BlockId.index_injective : BlockId.index.Injective := by
  rintro ⟨_⟩ ⟨_⟩ h
  exact congrArg _ h

theorem RegionId.index_injective : RegionId.index.Injective := by
  rintro ⟨_⟩ ⟨_⟩ h
  exact congrArg _ h

/-- Nodes of a function with what the tables hold for them, and values with their origin. -/
abbrev Entries :=
  Multiset (OpId × Op) × Multiset (BlockId × Block) × Multiset (RegionId × Region) ×
    Multiset (ValueId × Origin)

namespace Entries

/-- The results of an op, each with its origin. -/
def resultsOf (id : OpId) (results : List ValueId) : Multiset (ValueId × Origin) :=
  ↑(results.zipIdx.map fun p => (p.1, Origin.opResult id p.2))

/-- The arguments of a block, each with its origin. -/
def argsOf (id : BlockId) (args : List ValueId) : Multiset (ValueId × Origin) :=
  ↑(args.zipIdx.map fun p => (p.1, Origin.blockArg id p.2))

/-- The entry of an op and those of its results. -/
def op (id : OpId) (d : Op) : Entries := ({(id, d)}, 0, 0, resultsOf id d.results)

/-- The entry of a block and those of its arguments. -/
def block (id : BlockId) (d : Block) : Entries := (0, {(id, d)}, 0, argsOf id d.args)

/-- The entry of a region. -/
def region (id : RegionId) (d : Region) : Entries := (0, 0, {(id, d)}, 0)

section Parts

variable (o : OpId) (b : BlockId) (r : RegionId) (od : Op) (bd : Block) (rd : Region)

@[simp] theorem op_ops : (op o od).1 = {(o, od)} := rfl
@[simp] theorem op_blocks : (op o od).2.1 = 0 := rfl
@[simp] theorem op_regions : (op o od).2.2.1 = 0 := rfl
@[simp] theorem op_values : (op o od).2.2.2 = resultsOf o od.results := rfl
@[simp] theorem block_ops : (block b bd).1 = 0 := rfl
@[simp] theorem block_blocks : (block b bd).2.1 = {(b, bd)} := rfl
@[simp] theorem block_regions : (block b bd).2.2.1 = 0 := rfl
@[simp] theorem block_values : (block b bd).2.2.2 = argsOf b bd.args := rfl
@[simp] theorem region_ops : (region r rd).1 = 0 := rfl
@[simp] theorem region_blocks : (region r rd).2.1 = 0 := rfl
@[simp] theorem region_regions : (region r rd).2.2.1 = {(r, rd)} := rfl
@[simp] theorem region_values : (region r rd).2.2.2 = 0 := rfl

end Parts

/-- Several regions. -/
theorem sum_region {α : Type} (l : List α) (id : α → RegionId) (d : α → Region) :
    (l.map fun a => region (id a) (d a)).sum = (0, 0, ↑(l.map fun a => (id a, d a)), 0) := by
  induction l with
  | nil => rfl
  | cons a l ih =>
    rw [List.map_cons, List.sum_cons, ih]
    rfl

theorem sum_op_ops {α : Type} (l : List α) (id : α → OpId) (d : α → Op) :
    (l.map fun a => op (id a) (d a)).sum.1 = ↑(l.map fun a => (id a, d a)) := by
  induction l with
  | nil => rfl
  | cons a l ih =>
    rw [List.map_cons, List.sum_cons, Prod.fst_add, ih]
    rfl

theorem sum_block_blocks {α : Type} (l : List α) (id : α → BlockId) (d : α → Block) :
    (l.map fun a => block (id a) (d a)).sum.2.1 = ↑(l.map fun a => (id a, d a)) := by
  induction l with
  | nil => rfl
  | cons a l ih =>
    rw [List.map_cons, List.sum_cons, Prod.snd_add, Prod.fst_add, ih]
    rfl

theorem argsOf_append (id : BlockId) (args : List ValueId) (v : ValueId) :
    argsOf id (args ++ [v]) = (v, .blockArg id args.length) ::ₘ argsOf id args := by
  simp [argsOf, List.zipIdx_append, ← Multiset.coe_add, ← Multiset.singleton_add, add_comm]

end Entries

/-- The tables of a function hold the entries, each node once. -/
structure Arena (f : Func) (e : Entries) : Prop where
  ops : Facts (fun id => f.ops[id.index]?) e.1
  blocks : Facts (fun id => f.blocks[id.index]?) e.2.1
  regions : Facts (fun id => f.regions[id.index]?) e.2.2.1
  values : Facts (fun id => f.values[id.index]?.map (·.origin)) e.2.2.2

namespace Arena

variable {f : Func} {e e' : Entries}

theorem as {d : Entries} (h : Arena f e) (he : e = d) : Arena f d := he ▸ h

theorem left (h : Arena f (e + e')) : Arena f e :=
  ⟨h.ops.left, h.blocks.left, h.regions.left, h.values.left⟩

theorem right (h : Arena f (e + e')) : Arena f e' := (h.as (add_comm e e')).left

theorem op? {id : OpId} {d : Op} (h : Arena f (.op id d + e)) : f.op? id = some d :=
  h.ops.holds (id, d) (by simp)

theorem block? {id : BlockId} {d : Block} (h : Arena f (.block id d + e)) :
    f.block? id = some d :=
  h.blocks.holds (id, d) (by simp)

theorem region? {id : RegionId} {d : Region} (h : Arena f (.region id d + e)) :
    f.region? id = some d :=
  h.regions.holds (id, d) (by simp)

end Arena

/-- `f'` is `f` with changes to its ops, blocks and regions and with values added. No op leaves its
place in the table. -/
structure Func.Grows (f f' : Func) (new : List ValueInfo) : Prop where
  name : f'.name = f.name
  sig : f'.sig = f.sig
  body : f'.body = f.body
  values : f'.values = f.values ++ new.toArray
  ops : f.ops.size ≤ f'.ops.size

namespace Func.Grows

variable {f f' f'' : Func} {new new' : List ValueInfo}

theorem refl (f : Func) : f.Grows f [] := ⟨rfl, rfl, rfl, by simp, le_refl _⟩

theorem trans (h : f.Grows f' new) (h' : f'.Grows f'' new') : f.Grows f'' (new ++ new') where
  name := h'.name.trans h.name
  sig := h'.sig.trans h.sig
  body := h'.body.trans h.body
  values := by rw [h'.values, h.values]; simp
  ops := h.ops.trans h'.ops

theorem value? (h : f.Grows f' new) {v : ValueId} (hv : v.index < f.values.size) :
    f'.value? v = f.value? v := by
  simp [Func.value?, h.values, Array.getElem?_append_left hv]

theorem value?_of_some (h : f.Grows f' new) {v : ValueId} {d : ValueInfo}
    (hv : f.value? v = some d) : f'.value? v = some d := by
  rw [h.value? (by simpa [Func.value?] using (Array.getElem?_eq_some_iff.mp hv).1), hv]

theorem size (h : f.Grows f' new) : f'.values.size = f.values.size + new.length := by
  simp [h.values]

end Func.Grows

/-- `f'` was made from `f` by edits. -/
def Func.GrowsTo (f f' : Func) : Prop := ∃ new, f.Grows f' new

namespace Func.GrowsTo

variable {f f' f'' : Func}

theorem refl (f : Func) : f.GrowsTo f := ⟨[], .refl f⟩

theorem trans (h : f.GrowsTo f') (h' : f'.GrowsTo f'') : f.GrowsTo f'' :=
  ⟨_, h.choose_spec.trans h'.choose_spec⟩

theorem body (h : f.GrowsTo f') : f'.body = f.body := h.choose_spec.body

theorem value?_of_some (h : f.GrowsTo f') {v : ValueId} {d : ValueInfo}
    (hv : f.value? v = some d) : f'.value? v = some d := h.choose_spec.value?_of_some hv

theorem value?_eq_none (h : f.GrowsTo f') {v : ValueId} (hv : f'.value? v = none) :
    f.value? v = none := by
  by_contra hne
  obtain ⟨d, hd⟩ := Option.ne_none_iff_exists'.mp hne
  rw [h.value?_of_some hd] at hv
  cases hv

theorem ops_le (h : f.GrowsTo f') : f.ops.size ≤ f'.ops.size := h.choose_spec.ops

theorem size_le (h : f.GrowsTo f') : f.values.size ≤ f'.values.size := by
  rw [h.choose_spec.size]
  exact Nat.le_add_right _ _

end Func.GrowsTo

theorem Func.Grows.growsTo {f f' : Func} {new : List ValueInfo} (h : f.Grows f' new) :
    f.GrowsTo f' := ⟨new, h⟩

/-- `new` has the type of `old`. -/
def SameType (f f' : Func) (old new : ValueId) : Prop :=
  ∀ d, f.value? old = some d → ∃ d', f'.value? new = some d' ∧ d'.ty = d.ty

theorem SameType.mono {f₀ f f' f'' : Func} {old new : ValueId} (h : SameType f f' old new)
    (g₀ : f₀.GrowsTo f) (g : f'.GrowsTo f'') : SameType f₀ f'' old new := by
  intro d hd
  obtain ⟨d', hd', hty⟩ := h d (g₀.value?_of_some hd)
  exact ⟨d', g.value?_of_some hd', hty⟩

end Unnest
