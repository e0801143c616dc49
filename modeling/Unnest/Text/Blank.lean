/-!
# Blank characters

The characters that count as white space at the ends of a setting's text, and the removal of
those ends.
-/

namespace Unnest.Text

/-- White space: tab to carriage return, space, next line, no-break space and the wider spaces. -/
def isBlank (c : Char) : Bool :=
  let n := c.toNat
  (9 ≤ n && n ≤ 13) || n == 0x20 || n == 0x85 || n == 0xa0 || n == 0x1680 ||
    (0x2000 ≤ n && n ≤ 0x200a) || n == 0x2028 || n == 0x2029 || n == 0x202f || n == 0x205f ||
    n == 0x3000

/-- A text without the white space at its two ends. -/
def trim (s : String) : String :=
  String.ofList ((s.toList.dropWhile isBlank).reverse.dropWhile isBlank).reverse

/-- Lower case for the twenty-six Latin capitals; all other characters stay as they are. -/
def lower (s : String) : String :=
  String.ofList (s.toList.map Char.toLower)

/-- Whether a list of characters starts somewhere inside another. -/
def startsWithin (part : List Char) : List Char → Bool
  | [] => part.isEmpty
  | c :: rest => part.isPrefixOf (c :: rest) || startsWithin part rest

/-- Whether a text occurs inside another. -/
def occursIn (part s : String) : Bool :=
  startsWithin part.toList s.toList

theorem isBlank_of_isWhitespace {c : Char} (h : c.isWhitespace) : isBlank c := by
  simp only [Char.isWhitespace, Bool.or_eq_true, decide_eq_true_eq] at h
  rcases h with ((rfl | rfl) | rfl) | rfl <;> decide

end Unnest.Text
