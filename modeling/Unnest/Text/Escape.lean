/-!
# Escaped text

String constants and string values are written between double quotes. A quote, a backslash and
the control characters inside are escaped, so that the written form stays on one line and ends at
its closing quote. Constants (`escape`) and values (`quote`) differ in which control characters
have a short escape: a value also has one for carriage return and for the null character.
-/

namespace Unnest.Text

/-- Control characters: the codes below space, and delete with the thirty-two codes after it. -/
def isControl (c : Char) : Bool :=
  c.toNat < 0x20 || (0x7f ≤ c.toNat && c.toNat < 0xa0)

/-- A character by its code, in lower-case hexadecimal between braces. -/
def codeEscape (c : Char) : List Char :=
  ['\\', 'u', '\x7b'] ++ Nat.toDigits 16 c.toNat ++ ['\x7d']

/-- The written form of one character of a string constant. -/
def escapeChar (c : Char) : List Char :=
  if c = '"' then ['\\', '"']
  else if c = '\\' then ['\\', '\\']
  else if c = '\n' then ['\\', 'n']
  else if c = '\t' then ['\\', 't']
  else if isControl c then codeEscape c
  else [c]

/-- The written form of a string constant, without its quotes. -/
def escape (s : String) : String :=
  String.ofList (s.toList.flatMap escapeChar)

/-- The written form of one character of a string value. Only control characters are escaped:
characters that do not print or that extend another, such as U+200B and U+0301, stand as they
are. -/
def quoteChar (c : Char) : List Char :=
  if c = '\r' then ['\\', 'r']
  else if c = '\x00' then ['\\', '0']
  else escapeChar c

/-- The written form of a string value, with its quotes. -/
def quote (s : String) : String :=
  String.ofList ('"' :: s.toList.flatMap quoteChar ++ ['"'])

theorem toList_escape (s : String) : (escape s).toList = s.toList.flatMap escapeChar := by
  simp [escape]

theorem escape_append (s t : String) : escape (s ++ t) = escape s ++ escape t := by
  simp [escape, String.ofList_append]

end Unnest.Text
