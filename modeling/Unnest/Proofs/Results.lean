import Mathlib
import Unnest.Func.Edit
/-!
# Results of computations

What a computation that changes a state leaves behind, and what the results of its steps say about
the result of the whole. At the end stand facts about the lists that such computations go through.
-/

namespace Unnest

variable {ε σ α β : Type}

/-! ## Runs -/

/-- The state that a run leaves. -/
def left (x : EStateM Stop σ α) (s : σ) : σ :=
  match x s with
  | .ok _ s' | .error _ s' => s'

/-- Whether a run ends. -/
def ends (x : EStateM Stop σ α) (s : σ) : Bool :=
  match x s with
  | .ok .. => true
  | .error .. => false

/-- The result of a run that ends. -/
def resultOf (x : EStateM Stop σ α) (s : σ) : Option α :=
  match x s with
  | .ok a _ => some a
  | .error .. => none

/-- A run that ends has a result. -/
theorem ok_left {x : EStateM Stop σ α} {s : σ} (h : ends x s = true) :
    ∃ a, x s = .ok a (left x s) := by
  unfold ends at h
  unfold left
  cases hx : x s with
  | ok a s' => exact ⟨a, rfl⟩
  | error e s' => simp [hx] at h

theorem ok_of_resultOf {x : EStateM Stop σ α} {s : σ} {a : α}
    (h : resultOf x s = some a) : x s = .ok a (left x s) := by
  unfold resultOf at h
  unfold left
  cases hx : x s with
  | ok a' s' =>
    rw [hx] at h
    cases h
    rfl
  | error e s' => simp [hx] at h

/-! ## Steps -/

/-- A first step with a known result. -/
theorem bind_of_ok {x : EStateM ε σ α} {k : α → EStateM ε σ β} {s s' : σ} {a : α}
    (h : x s = .ok a s') : (x >>= k) s = k a s' := by
  change EStateM.bind x k s = _
  rw [EStateM.bind, h]

theorem bind_of_error {x : EStateM ε σ α} {k : α → EStateM ε σ β} {s s' : σ} {e : ε}
    (h : x s = .error e s') : (x >>= k) s = .error e s' := by
  simp only [Bind.bind, EStateM.bind, h]

/-- A result comes from a result of the first step. -/
theorem bind_eq_ok {x : EStateM ε σ α} {k : α → EStateM ε σ β} {s s'' : σ} {b : β}
    (h : (x >>= k) s = .ok b s'') : ∃ a s', x s = .ok a s' ∧ k a s' = .ok b s'' := by
  cases hx : x s with
  | error e s' =>
    rw [bind_of_error hx] at h
    cases h
  | ok a s' => exact ⟨a, s', rfl, (bind_of_ok hx).symm.trans h⟩

theorem read_of_ok {x : Except Stop α} {a : α} (h : x = .ok a) (s : σ) :
    (liftM x : EStateM Stop σ α) s = .ok a s := by
  rw [h]
  rfl

theorem Except.bind_eq_ok {x : Except ε α} {k : α → Except ε β} {c : β}
    (h : (x >>= k) = .ok c) : ∃ a, x = .ok a ∧ k a = .ok c := by
  cases x with
  | ok a => exact ⟨a, rfl, h⟩
  | error e => cases h

theorem Except.bind_eq_error {x : Except ε α} {k : α → Except ε β} {e : ε}
    (h : (x >>= k) = .error e) : x = .error e ∨ ∃ a, x = .ok a ∧ k a = .error e := by
  cases x with
  | ok a => exact .inr ⟨a, rfl, h⟩
  | error e' => cases h; exact .inl rfl

/-! ## Loops -/

theorem forM_eq_of_mem {l : List α} {g g' : α → Except Stop Unit}
    (h : ∀ a ∈ l, g' a = g a) : l.forM g' = l.forM g := by
  induction l with
  | nil => rfl
  | cons a l ih =>
    change (g' a >>= fun _ => l.forM g') = (g a >>= fun _ => l.forM g)
    rw [h a (by simp), ih fun a ha => h a (by simp [ha])]

/-- A loop ends if each of its steps does. -/
theorem forM_eq_ok_iff {l : List α} {g : α → Except Stop Unit} :
    l.forM g = .ok () ↔ ∀ a ∈ l, g a = .ok () := by
  induction l with
  | nil => simp [pure, Except.pure]
  | cons a l ih =>
    change (g a >>= fun _ => l.forM g) = _ ↔ _
    rw [List.forall_mem_cons]
    cases ha : g a with
    | ok u => exact ih.trans (by simp)
    | error e => simp [bind, Except.bind]

/-- A fold whose steps all have a result. -/
theorem foldlM_of_ok {g : β → α → Except Stop β} {k : β → α → β} {l : List α}
    (h : ∀ a ∈ l, ∀ b, g b a = .ok (k b a)) (b : β) : l.foldlM g b = .ok (l.foldl k b) := by
  induction l generalizing b with
  | nil => rfl
  | cons a l ih =>
    obtain ⟨ha, hl⟩ := List.forall_mem_cons.mp h
    rw [List.foldlM_cons, ha b]
    exact ih hl (k b a)

/-- A filter whose tests all have a result. -/
theorem filterM_of_ok {p : α → Except Stop Bool} {q : α → Bool} {l : List α}
    (h : ∀ a ∈ l, p a = .ok (q a)) : l.filterM p = .ok (l.filter q) := by
  have haux (l acc : List α) (h : ∀ a ∈ l, p a = .ok (q a)) :
      l.filterAuxM p acc = .ok ((l.filter q).reverse ++ acc) := by
    induction l generalizing acc with
    | nil => rfl
    | cons a l ih =>
      obtain ⟨ha, hl⟩ := List.forall_mem_cons.mp h
      unfold List.filterAuxM
      rw [ha]
      change l.filterAuxM p (bif q a then a :: acc else acc) = _
      rw [ih _ hl, List.filter_cons]
      cases q a <;> simp
  unfold List.filterM
  rw [haux l [] h, List.append_nil]
  exact congrArg Except.ok (List.reverse_reverse _)

/-! ## Lists -/

theorem takeWhile_congr {p q : α → Bool} {l : List α} (h : ∀ a ∈ l, p a = q a) :
    l.takeWhile p = l.takeWhile q := by
  induction l with
  | nil => rfl
  | cons a l ih =>
    obtain ⟨ha, hl⟩ := List.forall_mem_cons.mp h
    rw [List.takeWhile_cons, List.takeWhile_cons, ha, ih hl]

theorem map_eq_of_zip {l : List α} {l' : List β} {g : α → β}
    (hl : l.length = l'.length) (h : ∀ p ∈ l.zip l', g p.1 = p.2) : l.map g = l' := by
  induction l generalizing l' with
  | nil => simpa using (List.length_eq_zero_iff.mp hl.symm).symm
  | cons a l ih =>
    cases l' with
    | nil => simp at hl
    | cons b l' =>
      simp only [List.zip_cons_cons, List.mem_cons, forall_eq_or_imp] at h
      rw [List.map_cons, h.1, ih (by simpa using hl) h.2]

/-- Lists that are joined without a repetition have nothing in common. -/
theorem index_eq_of_nodup_flatMap {l : List α} {g : α → List β}
    (h : (l.flatMap g).Nodup) {i j : Nat} {a b : α} (ha : l[i]? = some a) (hb : l[j]? = some b)
    {x : β} (hx : x ∈ g a) (hy : x ∈ g b) : i = j := by
  obtain ⟨hi, rfl⟩ := List.getElem?_eq_some_iff.mp ha
  obtain ⟨hj, rfl⟩ := List.getElem?_eq_some_iff.mp hb
  have hd := List.pairwise_iff_getElem.mp (List.nodup_flatMap.mp h).2
  rcases Nat.lt_trichotomy i j with hlt | heq | hlt
  · exact absurd hy (hd i j hi hj hlt hx)
  · exact heq
  · exact absurd hx (hd j i hj hi hlt hy)

theorem eq_of_nodup_flatMap {l : List α} {g : α → List β} (h : (l.flatMap g).Nodup)
    {a b : α} (ha : a ∈ l) (hb : b ∈ l) {x : β} (hx : x ∈ g a) (hy : x ∈ g b) : a = b := by
  obtain ⟨i, hi⟩ := List.getElem?_of_mem ha
  obtain ⟨j, hj⟩ := List.getElem?_of_mem hb
  obtain rfl := index_eq_of_nodup_flatMap h hi hj hx hy
  exact Option.some.inj (hi.symm.trans hj)

theorem forall₂_split {r : α → β → Prop} {l₁ l₂ : List α} {a : α} {l : List β}
    (h : List.Forall₂ r (l₁ ++ a :: l₂) l) : ∃ m₁ b m₂, l = m₁ ++ b :: m₂ ∧
      List.Forall₂ r l₁ m₁ ∧ r a b ∧ List.Forall₂ r l₂ m₂ := by
  induction l₁ generalizing l with
  | nil =>
    obtain ⟨b, m₂, hb, hm, rfl⟩ := List.forall₂_cons_left_iff.mp h
    exact ⟨[], b, m₂, rfl, .nil, hb, hm⟩
  | cons c l₁ ih =>
    obtain ⟨d, m, hd, hm, rfl⟩ := List.forall₂_cons_left_iff.mp h
    obtain ⟨m₁, b, m₂, rfl, h₁, hb, h₂⟩ := ih hm
    exact ⟨d :: m₁, b, m₂, rfl, .cons hd h₁, hb, h₂⟩

theorem forall₂_mem_right {r : α → β → Prop} {l : List α} {l' : List β}
    (h : List.Forall₂ r l l') {b : β} (hb : b ∈ l') : ∃ a ∈ l, r a b := by
  obtain ⟨m₁, m₂, rfl⟩ := List.append_of_mem hb
  obtain ⟨l₁, a, l₂, rfl, -, hab, -⟩ := forall₂_split h.flip
  exact ⟨a, by simp, hab⟩

end Unnest
