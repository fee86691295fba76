import Backref.Bytecode.Opcode

/-!
# Instructions

An instruction with its place in the code array, and its text in a
disassembly.
-/

namespace Backref

/-- The operand of an instruction. Branches are relative to the instruction's
own offset. -/
inductive Operand
  | none
  | int8 (value : Int8)
  | int16 (value : Int16)
  | uint8 (value : UInt8)
  | slot (index : UInt16)
  | increment (index : UInt16) (delta : Int16)
  | constant (index : UInt16)
  | invokeInterface (index : UInt16) (count : UInt8)
  | invokeDynamic (index : UInt16)
  | multiNewArray (index : UInt16) (dimensions : UInt8)
  | branch (offset : Int32)
  /-- One offset for each value from `low` to `high`. -/
  | tableSwitch (default low high : Int32) (offsets : Array Int32)
  /-- Values with their offsets. -/
  | lookupSwitch (default : Int32) (pairs : Array (Int32 × Int32))
  deriving DecidableEq, Repr

/-- An instruction. Its size counts the opcode, a prefix, padding and operands. -/
structure Instruction where
  offset : Nat
  size : Nat
  opcode : UInt8
  wide : Bool
  operand : Operand
  deriving DecidableEq, Repr

namespace Operand

/-- The pool index in an operand. -/
def constantIndex? : Operand → Option UInt16
  | constant index | invokeInterface index _ | invokeDynamic index | multiNewArray index _ =>
    some index
  | _ => Option.none

/-- The relative branches of an operand: the default first, then the others in order. -/
def branches : Operand → List Int32
  | branch offset => [offset]
  | tableSwitch default _ _ offsets => default :: offsets.toList
  | lookupSwitch default pairs => default :: pairs.toList.map Prod.snd
  | _ => []

end Operand

namespace Instruction

/-- The mnemonic of an instruction, without its prefix. -/
def mnemonic (i : Instruction) : String := Opcode.mnemonic i.opcode

/-- The pool index that an instruction refers to. -/
def constantIndex? (i : Instruction) : Option UInt16 := i.operand.constantIndex?

/-- The positions that an instruction may branch to, in operand order. -/
def targets (i : Instruction) : List Int :=
  i.operand.branches.map fun offset => i.offset + offset.toInt

/-- A number, padded with blanks on the left to a least width. -/
def padded (width n : Nat) : String :=
  let digits := Nat.toDigits 10 n
  String.ofList (List.replicate (width - digits.length) ' ' ++ digits)

/-- The text of an instruction's operand, with the blank before it. -/
def operandText (i : Instruction) : String :=
  match i.operand with
  | .none => ""
  | .int8 value => s!" {value.toInt}"
  | .int16 value => s!" {value.toInt}"
  | .uint8 value => s!" {value}"
  | .slot index => s!" {index}"
  | .increment index delta => s!" {index}, {delta.toInt}"
  | .constant index | .invokeDynamic index => s!" #{index}"
  | .invokeInterface index count => s!" #{index}, {count}"
  | .multiNewArray index dimensions => s!" #{index}, {dimensions}"
  | .branch _ | .tableSwitch .. | .lookupSwitch .. =>
    " " ++ ", ".intercalate (i.targets.map toString)

/-- The line of an instruction in a disassembly. -/
def render (i : Instruction) : String :=
  padded 5 i.offset ++ ": " ++ (if i.wide then "wide " else "") ++ i.mnemonic ++ i.operandText

end Instruction

end Backref
