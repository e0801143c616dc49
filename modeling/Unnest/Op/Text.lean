import Unnest.Op.Kind
/-!
# The text of an op kind

Every kind has a mnemonic, followed by what its fields say.
-/

namespace Unnest

/-- The word a listing has for a construct. -/
def Construct.mnemonic : Construct → String
  | entry => "entry"
  | exit => "exit"
  | ret => "return"
  | retVal => "return_val"
  | yieldVal => "yield_return_val"
  | branch => "if"
  | whileLoop _ => "while"
  | doWhile _ => "do_while"
  | forLoop _ => "for"
  | switch _ => "switch"
  | labeled _ => "label"
  | brk _ => "break"
  | cont _ => "continue"
  | yield => "yield"
  | condition => "condition"
  | noCondition => "no_condition"
  | merge => "merge"
  | tryCatch => "try"
  | catchMark _ => "catch"
  | throw => "throw"
  | call _ => "call"
  | callIndirect => "call_indirect"
  | stateLabel => "state_label"
  | switchState _ => "switch_state"
  | capture => "capture"

/-- The word a listing has for an instruction. -/
def Instr.mnemonic : Instr → String
  | constant _ => "constant"
  | alloc _ => "variable"
  | load => "load"
  | store => "store"
  | fieldRef _ => "property_ref"
  | cast => "cast"
  | binary _ => "binary"
  | null => "null"
  | undefined => "undef"
  | call _ => "call_internal"
  | callIndirect => "call_indirect_internal"
  | landingPad _ _ => "landing_pad"
  | matchType _ => "compare_catch_type"
  | beginCatch => "begin_catch"
  | endCatch => "end_catch"
  | saveCatch => "save_catch_var"
  | beginCleanup => "begin_cleanup"

/-- The word a listing has for a transfer. -/
def Transfer.mnemonic : Transfer → String
  | br _ => "br"
  | condBr _ _ _ => "cond_br"
  | switchInt _ _ => "switch_int"
  | invoke _ _ _ => "invoke"
  | throwTo _ => "throw_unwind"
  | throwOut => "throw_call"
  | endCleanup _ => "end_cleanup"
  | ret => "return_internal"
  | unreachable => "unreachable"

/-- The word a listing has for an op. -/
def OpKind.mnemonic : OpKind → String
  | construct c => c.mnemonic
  | instr i => i.mnemonic
  | transfer t => t.mnemonic

/-- A label after the mnemonic, when there is one. -/
def labelText : Option String → String
  | some label => " '" ++ label
  | none => ""

/-- What the fields of a construct add to its mnemonic. -/
def Construct.details : Construct → String
  | whileLoop label | doWhile label | forLoop label | switch label | brk label | cont label =>
    labelText label
  | labeled label => labelText (some label)
  | catchMark (some type) => " <" ++ type.text ++ ">"
  | call callee => " @" ++ callee
  | switchState default => " default " ++ default.text
  | _ => ""

/-- What the fields of an instruction add to its mnemonic. -/
def Instr.details : Instr → String
  | constant value => " " ++ value.text
  | alloc true => " heap"
  | fieldRef index => " ." ++ toString index
  | binary op => " " ++ op.text
  | call callee => " @" ++ callee
  | landingPad cleanup (some token) =>
    (if cleanup then " cleanup" else "") ++ " catch " ++ token.text
  | landingPad cleanup none => if cleanup then " cleanup" else " catch all"
  | matchType token => " " ++ token.text
  | _ => ""

/-- What the fields of a transfer add to its mnemonic. -/
def Transfer.details : Transfer → String
  | br target => " " ++ target.text
  | condBr thenTo elseTo _ => " " ++ thenTo.text ++ ", " ++ elseTo.text
  | switchInt default cases =>
    " default " ++ default.text ++
      String.join (cases.map fun c => ", " ++ toString c.1.toInt ++ " => " ++ c.2.text)
  | invoke (.symbol name) normal unwind =>
    " @" ++ name ++ " to " ++ normal.text ++ " unwind " ++ unwind.text
  | invoke .indirect normal unwind => " to " ++ normal.text ++ " unwind " ++ unwind.text
  | throwTo unwind => " unwind " ++ unwind.text
  | endCleanup (some unwind) => " unwind " ++ unwind.text
  | _ => ""

/-- The op as a listing prints it, with the data its kind carries. -/
def OpKind.text : OpKind → String
  | construct c => c.mnemonic ++ c.details
  | instr i => i.mnemonic ++ i.details
  | transfer t => t.mnemonic ++ t.details

end Unnest
