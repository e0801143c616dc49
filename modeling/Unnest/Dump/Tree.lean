import Unnest.Decimal.Layout
/-!
# Dumps

A dump is the tree form in which functions are saved and read back: numbers, texts, lists, and
records whose fields keep their order. It is written on one line (`compact`) or with one item a
line (`indented`).
-/

namespace Unnest

/-- The shape of a dump. -/
inductive Dump where
  | null
  | bool (value : Bool)
  | int (value : Int)
  | float (value : Binary64)
  | str (value : String)
  | list (items : List Dump)
  | record (fields : List (String × Dump))
  deriving Inhabited

namespace Dump

/-! ## Reading -/

/-- A field of a record; a missing field reads as `null`. -/
def field (d : Dump) (name : String) : Dump :=
  match d with
  | record fields => (fields.lookup name).getD null
  | _ => null

/-- The natural number a dump is. -/
def nat? : Dump → Option Nat
  | int value => if 0 ≤ value then some value.toNat else none
  | _ => none

/-- The integer a dump is. -/
def int64? : Dump → Option Int64
  | int value => some (Int64.ofInt value)
  | _ => none

/-- The boolean a dump is. -/
def bool? : Dump → Option Bool
  | bool value => some value
  | _ => none

/-- The string a dump is. -/
def str? : Dump → Option String
  | str value => some value
  | _ => none

/-- Reads every item of a list; `null` reads as the empty list. -/
def listOf? {α : Type} (read : Dump → Option α) : Dump → Option (List α)
  | list items => items.mapM read
  | null => some []
  | _ => none

/-- Reads `null` as nothing. -/
def optional? {α : Type} (read : Dump → Option α) : Dump → Option (Option α)
  | null => some none
  | d => (read d).map some

/-! ## Writing -/

/-- Writes nothing as `null`. -/
def optional {α : Type} (write : α → Dump) : Option α → Dump
  | some a => write a
  | none => null

/-- The dump of a natural number. -/
def ofNat (n : Nat) : Dump := int n

/-- A record with a single field, as the cases of a choice are written. -/
def tagged (name : String) (content : Dump) : Dump := record [(name, content)]

/-- Numbers in dumps: plain from a hundred-thousandth up to ten to the sixteenth, exponents carry
their sign, a half goes to the even digit. -/
def floatLayout : Decimal.Layout := { least := -5, most := 16, plusSign := true, tie := .toEven }

/-- The text of a number; dumps have no notation for infinities and not-a-number. -/
def floatText (x : Binary64) : String :=
  if x.isNaN || x.isInfinite then "null" else floatLayout.write x

/-- Four hexadecimal digits. -/
def fourHex (n : Nat) : List Char :=
  let ds := Nat.toDigits 16 n
  List.replicate (4 - ds.length) '0' ++ ds

/-- A character as it stands in a quoted string. -/
def textChar (c : Char) : List Char :=
  if c = '"' then ['\\', '"']
  else if c = '\\' then ['\\', '\\']
  else if c = '\x08' then ['\\', 'b']
  else if c = '\x0c' then ['\\', 'f']
  else if c = '\n' then ['\\', 'n']
  else if c = '\r' then ['\\', 'r']
  else if c = '\t' then ['\\', 't']
  else if c.toNat < 0x20 then ['\\', 'u'] ++ fourHex c.toNat
  else [c]

/-- A text between quotes. -/
def quoted (s : String) : String :=
  String.ofList ('"' :: s.toList.flatMap textChar ++ ['"'])

mutual

/-- The dump on one line, without blanks. -/
def compact : Dump → String
  | null => "null"
  | bool value => toString value
  | int value => toString value
  | float value => floatText value
  | str value => quoted value
  | list items => "[" ++ String.intercalate "," (compactItems items) ++ "]"
  | record fields => "\x7b" ++ String.intercalate "," (compactFields fields) ++ "\x7d"

/-- The items of a list, without white space. -/
def compactItems : List Dump → List String
  | [] => []
  | d :: rest => compact d :: compactItems rest

/-- The fields of a record, without white space. -/
def compactFields : List (String × Dump) → List String
  | [] => []
  | (name, d) :: rest => (quoted name ++ ":" ++ compact d) :: compactFields rest

end

/-- Items between an opening and a closing bracket, one a line, two blanks deeper than `margin`. -/
def bracketed (opening closing margin : String) (items : List String) : String :=
  match items with
  | [] => opening ++ closing
  | items =>
    opening ++ "\n" ++ String.intercalate ",\n" (items.map ((margin ++ "  ") ++ ·)) ++
      "\n" ++ margin ++ closing

mutual

/-- The dump with one item a line; `margin` stands before every line after the first. -/
def indentedBy (margin : String) : Dump → String
  | list items => bracketed "[" "]" margin (indentedItems (margin ++ "  ") items)
  | record fields => bracketed "\x7b" "\x7d" margin (indentedFields (margin ++ "  ") fields)
  | null => "null"
  | bool value => toString value
  | int value => toString value
  | float value => floatText value
  | str value => quoted value

/-- The items of a list, one on a line. -/
def indentedItems (margin : String) : List Dump → List String
  | [] => []
  | d :: rest => indentedBy margin d :: indentedItems margin rest

/-- The fields of a record, one on a line. -/
def indentedFields (margin : String) : List (String × Dump) → List String
  | [] => []
  | (name, d) :: rest =>
    (quoted name ++ ": " ++ indentedBy margin d) :: indentedFields margin rest

end

/-- The dump with one item a line. -/
def indented (d : Dump) : String := indentedBy "" d

end Dump

end Unnest
