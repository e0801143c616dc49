import Mathlib
import Unnest.Table
/-!
# What tables hold

A table after one key, or several, have been entered in it: which entries it lists, and what it
holds for a key.
-/

namespace Unnest

namespace Table

variable {κ α : Type} [DecidableEq κ]

/-- A new key comes at the end. -/
theorem entries_insert (t : Table κ α) {k : κ} (a : α) (h : k ∉ t.entries.map Prod.fst) :
    (t.insert k a).entries = t.entries ++ [(k, a)] := by
  unfold insert
  obtain ⟨l⟩ := t
  simp only at h ⊢
  induction l with
  | nil => rfl
  | cons p l ih =>
    simp only [List.map_cons, List.mem_cons, not_or] at h
    simp [put, Ne.symm h.1, ih h.2]

theorem entries_insertAll (t : Table κ α) (l : List (κ × α))
    (h : (t.entries.map Prod.fst ++ l.map Prod.fst).Nodup) :
    (t.insertAll l).entries = t.entries ++ l := by
  induction l generalizing t with
  | nil => simp [insertAll]
  | cons p l ih =>
    have hp : p.1 ∉ t.entries.map Prod.fst := by
      rw [List.map_cons, List.nodup_middle, List.nodup_cons] at h
      exact fun hm => h.1 (by simp only [List.mem_append, hm, true_or])
    have he := t.entries_insert p.2 hp
    have := ih (t.insert p.1 p.2) (by rw [he]; simpa using h)
    rw [he] at this
    simpa [insertAll] using this

/-- What a table holds for a key that occurs once. -/
theorem get?_of_mem {t : Table κ α} (h : (t.entries.map Prod.fst).Nodup) {p : κ × α}
    (hp : p ∈ t.entries) : t.get? p.1 = some p.2 := by
  obtain ⟨l⟩ := t
  simp only [get?] at *
  induction l with
  | nil => simp at hp
  | cons q l ih =>
    rw [List.map_cons, List.nodup_cons] at h
    rcases List.mem_cons.mp hp with rfl | hp
    · simp [look]
    · have hne : q.1 ≠ p.1 := fun hq => h.1 (hq ▸ List.mem_map_of_mem hp)
      simp [look, hne, ih h.2 hp]

theorem get?_eq_none {t : Table κ α} {k : κ} (h : k ∉ t.entries.map Prod.fst) :
    t.get? k = none := by
  obtain ⟨l⟩ := t
  simp only [get?] at *
  induction l with
  | nil => rfl
  | cons q l ih =>
    simp only [List.map_cons, List.mem_cons, not_or] at h
    simp [look, Ne.symm h.1, ih h.2]

/-- Where an entry comes from. -/
theorem get?_insertAll {t : Table κ α} {l : List (κ × α)} {k : κ} {a : α}
    (h : (t.insertAll l).get? k = some a) : (k, a) ∈ l ∨ t.get? k = some a := by
  induction l generalizing t with
  | nil => exact .inr h
  | cons p l ih =>
    rcases ih h with h | h
    · exact .inl (List.mem_cons_of_mem _ h)
    · rw [get?_insert] at h
      split at h
      · cases h
        subst_vars
        exact .inl List.mem_cons_self
      · exact .inr h

/-- What a table holds after the same thing has been entered for several keys. -/
theorem get?_foldl_insert (g : κ → α) (t : Table κ α) (keys : List κ) (k : κ) :
    (keys.foldl (fun t k => t.insert k (g k)) t).get? k =
      if k ∈ keys then some (g k) else t.get? k := by
  induction keys generalizing t with
  | nil => simp
  | cons c keys ih =>
    rw [List.foldl_cons, ih]
    by_cases hk : k ∈ keys
    · simp [hk]
    · by_cases hc : c = k
      · subst hc
        simp [hk]
      · simp [hk, get?_insert_of_ne _ _ hc, Ne.symm hc]

/-- Everything in the table is as `P` says. -/
def All (P : α → Prop) (t : Table κ α) : Prop :=
  ∀ k a, t.get? k = some a → P a

theorem All.insert {P : α → Prop} {t : Table κ α} (h : t.All P) (key : κ) {u : α} (hu : P u) :
    (t.insert key u).All P := by
  intro k a ha
  rw [get?_insert] at ha
  split at ha
  · exact Option.some.inj ha ▸ hu
  · exact h k a ha

end Table

end Unnest
