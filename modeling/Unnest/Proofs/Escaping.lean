import Mathlib
import Unnest.Literal
/-!
# Escaped text reads back

The written forms of the characters have different lengths, but none of them begins another
(`escapeChar_append_inj`), and none begins with a quote. So what was escaped is known from the text,
also where more text follows (`flatMap_quote_inj`). A reader needs no table of the escapes to find
the end of a constant: a quote inside stands behind an odd number of backslashes, the closing one
behind an even number.
-/

namespace Unnest.Text

/-! ## Codes -/

theorem digitChar_inj : ∀ m < 16, ∀ n < 16, Nat.digitChar m = Nat.digitChar n → m = n := by decide

/-- A character that is written as it is. -/
def Plain (c : Char) : Prop := c ≠ '"' ∧ c ≠ '\\' ∧ isControl c = false

instance : DecidablePred Plain := fun _ => inferInstanceAs (Decidable (_ ∧ _))

theorem digitChar_plain : ∀ n < 16, Plain (Nat.digitChar n) ∧ Nat.digitChar n ≠ '\x7d' := by
  decide

theorem toDigits_inj {m n : Nat} (h : Nat.toDigits 16 m = Nat.toDigits 16 n) : m = n := by
  induction m using Nat.strongRecOn generalizing n with
  | ind m ih =>
    have hlen (k : Nat) (hk : 16 ≤ k) : 1 < (Nat.toDigits 16 k).length := by
      rw [Nat.toDigits_of_base_le (by decide) hk, List.length_append]
      simpa using Nat.length_toDigits_pos
    have hlen' (k : Nat) (hk : k < 16) : (Nat.toDigits 16 k).length = 1 := by
      rw [Nat.toDigits_of_lt_base hk, List.length_singleton]
    have hsame := congrArg List.length h
    rcases Nat.lt_or_ge m 16 with hm | hm
    · have hn : n < 16 := by
        by_contra hn
        have := hlen n (by omega)
        have := hlen' m hm
        omega
      rw [Nat.toDigits_of_lt_base hm, Nat.toDigits_of_lt_base hn, List.singleton_inj] at h
      exact digitChar_inj m hm n hn h
    · have hn : 16 ≤ n := by
        by_contra hn
        have := hlen m hm
        have := hlen' n (by omega)
        omega
      rw [Nat.toDigits_of_base_le (by decide) hm, Nat.toDigits_of_base_le (by decide) hn] at h
      obtain ⟨hhigh, hlow⟩ := List.append_inj' h rfl
      have hdiv := ih (m / 16) (by omega) hhigh
      have hmod := digitChar_inj _ (Nat.mod_lt m (by decide)) _ (Nat.mod_lt n (by decide))
        (List.singleton_inj.mp hlow)
      omega

theorem eq_digitChar_of_mem_toDigits {c : Char} {n : Nat} (h : c ∈ Nat.toDigits 16 n) :
    ∃ k < 16, c = Nat.digitChar k := by
  induction n using Nat.strongRecOn with
  | ind n ih =>
    rcases Nat.lt_or_ge n 16 with hn | hn
    · rw [Nat.toDigits_of_lt_base hn, List.mem_singleton] at h
      exact ⟨n, hn, h⟩
    · rw [Nat.toDigits_of_base_le (by decide) hn, List.mem_append, List.mem_singleton] at h
      rcases h with h | rfl
      · exact ih (n / 16) (by omega) h
      · exact ⟨n % 16, Nat.mod_lt n (by decide), rfl⟩

/-- A text up to the first place of a character is known from the whole. -/
theorem append_cons_inj {c : Char} {l l' x y : List Char} (hl : c ∉ l) (hl' : c ∉ l')
    (h : l ++ c :: x = l' ++ c :: y) : l = l' ∧ x = y := by
  induction l generalizing l' with
  | nil => cases l' <;> simp_all
  | cons a l ih => cases l' <;> grind

theorem codeEscape_append_inj {c d : Char} {x y : List Char}
    (h : codeEscape c ++ x = codeEscape d ++ y) : c = d ∧ x = y := by
  have hbrace (n : Nat) : '\x7d' ∉ Nat.toDigits 16 n := by
    intro hm
    obtain ⟨k, hk, heq⟩ := eq_digitChar_of_mem_toDigits hm
    exact (digitChar_plain k hk).2 heq.symm
  simp only [codeEscape, List.cons_append, List.nil_append, List.append_assoc, List.cons.injEq,
    true_and] at h
  obtain ⟨hdigits, hrest⟩ := append_cons_inj (hbrace _) (hbrace _) h
  exact ⟨Char.toNat_inj.mp (toDigits_inj hdigits), hrest⟩

theorem codeEscape_plain (c : Char) :
    ∃ w, codeEscape c = '\\' :: (w ++ ['\x7d']) ∧ ∀ a ∈ w, Plain a := by
  refine ⟨'u' :: '\x7b' :: Nat.toDigits 16 c.toNat, by simp [codeEscape], fun a ha => ?_⟩
  rw [List.mem_cons, List.mem_cons] at ha
  rcases ha with rfl | rfl | ha
  · decide
  · decide
  · obtain ⟨k, hk, rfl⟩ := eq_digitChar_of_mem_toDigits ha
    exact (digitChar_plain k hk).1

/-! ## One character -/

/-- The characters with an escape of two characters, and the second of these. -/
def short : List (Char × Char) := [('"', '"'), ('\\', '\\'), ('\n', 'n'), ('\t', 't')]

/-- The ways to write a character. -/
theorem escapeChar_cases (c : Char) :
    (∃ k, (c, k) ∈ short ∧ escapeChar c = ['\\', k]) ∨ escapeChar c = codeEscape c ∨
      Plain c ∧ escapeChar c = [c] := by
  unfold escapeChar short Plain
  split_ifs <;> simp_all

/-- No written form begins another. -/
theorem escapeChar_append_inj {c d : Char} {x y : List Char}
    (h : escapeChar c ++ x = escapeChar d ++ y) : c = d ∧ x = y := by
  obtain ⟨k, hk, hc⟩ | hc | ⟨hc', hc⟩ := escapeChar_cases c <;>
  obtain ⟨l, hl, hd⟩ | hd | ⟨hd', hd⟩ := escapeChar_cases d <;>
  rw [hc, hd] at h
  case inr.inl.inr.inl => exact codeEscape_append_inj h
  all_goals grind [codeEscape, short, Plain]

/-- A written form begins with no quote. -/
theorem escapeChar_append_ne (c : Char) (x y : List Char) : escapeChar c ++ x ≠ '"' :: y := by
  obtain ⟨k, -, hc⟩ | hc | ⟨hplain, hc⟩ := escapeChar_cases c
  · simp [hc]
  · simp [hc, codeEscape]
  · rw [hc, List.singleton_append]
    exact fun h => hplain.1 (List.cons.inj h).1

theorem not_isControl_of_mem_escapeChar {a c : Char} (h : a ∈ escapeChar c) :
    isControl a = false := by
  obtain ⟨k, hk, hc⟩ | hc | ⟨hplain, hc⟩ := escapeChar_cases c <;> rw [hc] at h
  case inl =>
    have hall : ∀ k ∈ short, isControl '\\' = false ∧ isControl k.2 = false := by decide
    obtain ⟨hslash, hk⟩ := hall _ hk
    rcases List.mem_pair.mp h with rfl | rfl <;> assumption
  case inr.inl =>
    obtain ⟨w, hw, hplain⟩ := codeEscape_plain c
    rw [hw, List.mem_cons, List.mem_append, List.mem_singleton] at h
    rcases h with rfl | h | rfl
    · decide
    · exact (hplain a h).2.2
    · decide
  case inr.inr => exact List.mem_singleton.mp h ▸ hplain.2.2

/-! ## Backslashes and quotes -/

/-- The number of backslashes that a text ends with. -/
def slashes (l : List Char) : Nat := (l.reverse.takeWhile (· = '\\')).length

theorem slashes_concat (l : List Char) (c : Char) :
    slashes (l ++ [c]) = if c = '\\' then slashes l + 1 else 0 := by
  unfold slashes
  rw [List.reverse_append, List.reverse_singleton, List.singleton_append, List.takeWhile_cons]
  split <;> simp_all

theorem slashes_append_pair (l : List Char) (c d : Char) :
    slashes (l ++ [c, d]) =
      if d = '\\' then (if c = '\\' then slashes l + 1 else 0) + 1 else 0 := by
  rw [List.append_cons, slashes_concat, slashes_concat]

/-- Behind whole written forms, one more keeps the number of backslashes even, and a quote in it
stands behind an odd number. -/
theorem slashes_append_escapeChar {l : List Char} (h : Even (slashes l)) (c : Char) :
    Even (slashes (l ++ escapeChar c)) ∧
      ∀ x y, escapeChar c = x ++ '"' :: y → Odd (slashes (l ++ x)) := by
  obtain ⟨k, hk, hc⟩ | hc | ⟨hplain, hc⟩ := escapeChar_cases c <;> rw [hc]
  case inl =>
    refine ⟨?_, fun x y hxy => ?_⟩
    · rw [slashes_append_pair, if_pos rfl]
      split
      · exact h.add_one.add_one
      · exact .zero
    · obtain rfl : x = ['\\'] := by
        rcases x with _ | ⟨a, _ | ⟨b, x⟩⟩ <;> simp at hxy
        rw [← hxy.1]
      rw [slashes_concat, if_pos rfl]
      exact h.add_one
  case inr.inl =>
    obtain ⟨w, hw, hplain⟩ := codeEscape_plain c
    refine ⟨?_, fun x y hxy => ?_⟩
    · rw [hw, ← List.cons_append, ← List.append_assoc, slashes_concat, if_neg (by decide)]
      exact .zero
    · have hmem : '"' ∈ '\\' :: (w ++ ['\x7d']) := by simp [← hw, hxy]
      simp only [List.mem_cons, List.mem_append, List.not_mem_nil, or_false] at hmem
      rcases hmem with hmem | hmem | hmem
      · exact absurd hmem (by decide)
      · exact absurd rfl (hplain _ hmem).1
      · exact absurd hmem (by decide)
  case inr.inr =>
    refine ⟨?_, fun x y hxy => ?_⟩
    · rw [slashes_concat, if_neg hplain.2.1]
      exact .zero
    · have hmem : '"' ∈ [c] := by simp [hxy]
      exact absurd (List.mem_singleton.mp hmem).symm hplain.1

/-- The quotes of an escaped text, and the backslashes at its end. -/
theorem slashes_flatMap (l : List Char) :
    Even (slashes (l.flatMap escapeChar)) ∧
      ∀ x y, l.flatMap escapeChar = x ++ '"' :: y → Odd (slashes x) := by
  induction l using List.reverseRecOn with
  | nil => simp [slashes]
  | append_singleton l c ih =>
    obtain ⟨heven, hodd⟩ := ih
    obtain ⟨heven', hodd'⟩ := slashes_append_escapeChar heven c
    rw [List.flatMap_append, List.flatMap_singleton]
    refine ⟨heven', fun x y h => ?_⟩
    -- the quote is in the last written form, or before it
    obtain ⟨z, rfl, hz⟩ | ⟨z, hl, hz⟩ := List.append_eq_append_iff.mp h
    · exact hodd' z y hz
    · cases z with
      | nil =>
        rw [List.append_nil] at hl
        rw [← hl, ← List.append_nil (l.flatMap escapeChar)]
        exact hodd' [] y hz.symm
      | cons a z =>
        obtain ⟨rfl, -⟩ := List.cons.inj hz
        exact hodd x z hl

/-! ## Constants -/

/-- What was escaped is known from the text up to the closing quote, whatever follows. -/
theorem flatMap_quote_inj {l l' x y : List Char}
    (h : l.flatMap escapeChar ++ '"' :: x = l'.flatMap escapeChar ++ '"' :: y) :
    l = l' ∧ x = y := by
  induction l generalizing l' with
  | nil =>
    cases l' with
    | nil => simpa using h
    | cons d l' =>
      rw [List.flatMap_cons, List.append_assoc] at h
      exact absurd h.symm (escapeChar_append_ne d _ _)
  | cons c l ih =>
    cases l' with
    | nil =>
      rw [List.flatMap_cons, List.append_assoc] at h
      exact absurd h (escapeChar_append_ne c _ _)
    | cons d l' =>
      rw [List.flatMap_cons, List.flatMap_cons, List.append_assoc, List.append_assoc] at h
      obtain ⟨rfl, hrest⟩ := escapeChar_append_inj h
      obtain ⟨rfl, rfl⟩ := ih hrest
      exact ⟨rfl, rfl⟩

/-- A string constant is written between quotes. Its text is that of no other string, has no control
character, and every quote in it stands behind an odd number of backslashes. So in a longer text the
constant ends with the first quote that stands behind an even number. -/
theorem escape_unambiguous :
    Function.Injective escape ∧
    ∀ s, (∀ c ∈ (escape s).toList, isControl c = false) ∧
      (∀ x y, (escape s).toList = x ++ '"' :: y → Odd (slashes x)) ∧
      (Literal.str s).text.toList = '"' :: (escape s).toList ++ ['"'] ∧
      Even (slashes (escape s).toList) ∧
      (∀ rest x y, (Literal.str s).text.toList ++ rest = '"' :: x ++ '"' :: y → Even (slashes x) →
        (escape s).toList <+: x) ∧
      ∀ t rest rest', (Literal.str s).text ++ rest = (Literal.str t).text ++ rest' →
        s = t ∧ rest = rest' := by
  have htext (s : String) : (Literal.str s).text.toList = '"' :: (escape s).toList ++ ['"'] := by
    simp [Literal.text]
  have hsplit (s t rest rest' : String)
      (h : (Literal.str s).text ++ rest = (Literal.str t).text ++ rest') :
      s = t ∧ rest = rest' := by
    have h := congrArg String.toList h
    simp only [String.toList_append, htext, List.cons_append, List.append_assoc, List.nil_append,
      List.cons.injEq, true_and, toList_escape] at h
    obtain ⟨hs, hrest⟩ := flatMap_quote_inj h
    exact ⟨String.toList_inj.mp hs, String.toList_inj.mp hrest⟩
  refine ⟨fun s t h => (hsplit s t "" "" (by simp [Literal.text, h])).1, fun s => ?_⟩
  obtain ⟨heven, hodd⟩ := slashes_flatMap s.toList
  rw [← toList_escape] at heven hodd
  refine ⟨fun c hc => ?_, hodd, htext s, heven, fun rest x y h hx => ?_, hsplit s⟩
  · rw [toList_escape, List.mem_flatMap] at hc
    obtain ⟨a, -, ha⟩ := hc
    exact not_isControl_of_mem_escapeChar ha
  · rw [htext, List.cons_append, List.cons_append, List.cons_append, List.append_assoc] at h
    obtain ⟨z, rfl, -⟩ | ⟨z, hz, hy⟩ := List.append_eq_append_iff.mp (List.cons.inj h).2
    · exact List.prefix_append _ _
    · cases z with
      | nil => simp [hz]
      | cons a z =>
        obtain ⟨rfl, -⟩ := List.cons.inj hy
        exact absurd (hodd x z hz) (Nat.not_odd_iff_even.mpr hx)

end Unnest.Text
