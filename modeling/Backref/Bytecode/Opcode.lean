/-!
# Opcodes

The instruction set: each of the opcodes `0x00` to `0xCA` has a mnemonic and
a form of operand.
-/

namespace Backref

/-- The forms of operand that follow an opcode. -/
inductive OperandForm
  | none
  | int8
  | int16
  | uint8
  /-- A pool index in one byte. -/
  | narrowConstant
  | constant
  /-- A local variable. -/
  | slot
  /-- A local variable and what is added to it. -/
  | increment
  | branch16
  | branch32
  | tableSwitch
  | lookupSwitch
  | invokeInterface
  | invokeDynamic
  | multiNewArray
  /-- Another opcode, whose operands are twice as wide. -/
  | wide
  deriving DecidableEq, Repr

namespace OperandForm

/-- The name of the form in words. -/
def name : OperandForm → String
  | none => "None"
  | int8 => "Int8"
  | int16 => "Int16"
  | uint8 => "UInt8"
  | narrowConstant => "ConstantU8"
  | constant => "Constant"
  | slot => "Local"
  | increment => "Increment"
  | branch16 => "Branch16"
  | branch32 => "Branch32"
  | tableSwitch => "TableSwitch"
  | lookupSwitch => "LookupSwitch"
  | invokeInterface => "InvokeInterface"
  | invokeDynamic => "InvokeDynamic"
  | multiNewArray => "MultiNewArray"
  | wide => "Wide"

end OperandForm

/-- What is known of an opcode. -/
structure OpcodeInfo where
  mnemonic : String
  form : OperandForm
  deriving DecidableEq, Repr

namespace Opcode

/-- Successive opcodes with one form of operand. -/
def run (form : OperandForm) (mnemonics : List String) : List OpcodeInfo :=
  mnemonics.map fun mnemonic => ⟨mnemonic, form⟩

/-- All opcodes in order. -/
def table : Array OpcodeInfo := List.toArray <|
  run .none ["nop", "aconst_null", "iconst_m1", "iconst_0", "iconst_1", "iconst_2", "iconst_3",
        "iconst_4", "iconst_5", "lconst_0", "lconst_1", "fconst_0", "fconst_1", "fconst_2",
        "dconst_0", "dconst_1"]
    ++ run .int8 ["bipush"]
    ++ run .int16 ["sipush"]
    ++ run .narrowConstant ["ldc"]
    ++ run .constant ["ldc_w", "ldc2_w"]
    ++ run .slot ["iload", "lload", "fload", "dload", "aload"]
    ++ run .none ["iload_0", "iload_1", "iload_2", "iload_3", "lload_0", "lload_1", "lload_2",
        "lload_3", "fload_0", "fload_1", "fload_2", "fload_3", "dload_0", "dload_1", "dload_2",
        "dload_3", "aload_0", "aload_1", "aload_2", "aload_3", "iaload", "laload", "faload",
        "daload", "aaload", "baload", "caload", "saload"]
    ++ run .slot ["istore", "lstore", "fstore", "dstore", "astore"]
    ++ run .none ["istore_0", "istore_1", "istore_2", "istore_3", "lstore_0", "lstore_1",
        "lstore_2", "lstore_3", "fstore_0", "fstore_1", "fstore_2", "fstore_3", "dstore_0",
        "dstore_1", "dstore_2", "dstore_3", "astore_0", "astore_1", "astore_2", "astore_3",
        "iastore", "lastore", "fastore", "dastore", "aastore", "bastore", "castore", "sastore",
        "pop", "pop2", "dup", "dup_x1", "dup_x2", "dup2", "dup2_x1", "dup2_x2", "swap", "iadd",
        "ladd", "fadd", "dadd", "isub", "lsub", "fsub", "dsub", "imul", "lmul", "fmul", "dmul",
        "idiv", "ldiv", "fdiv", "ddiv", "irem", "lrem", "frem", "drem", "ineg", "lneg", "fneg",
        "dneg", "ishl", "lshl", "ishr", "lshr", "iushr", "lushr", "iand", "land", "ior", "lor",
        "ixor", "lxor"]
    ++ run .increment ["iinc"]
    ++ run .none ["i2l", "i2f", "i2d", "l2i", "l2f", "l2d", "f2i", "f2l", "f2d", "d2i", "d2l",
        "d2f", "i2b", "i2c", "i2s", "lcmp", "fcmpl", "fcmpg", "dcmpl", "dcmpg"]
    ++ run .branch16 ["ifeq", "ifne", "iflt", "ifge", "ifgt", "ifle", "if_icmpeq", "if_icmpne",
        "if_icmplt", "if_icmpge", "if_icmpgt", "if_icmple", "if_acmpeq", "if_acmpne", "goto",
        "jsr"]
    ++ run .slot ["ret"]
    ++ run .tableSwitch ["tableswitch"]
    ++ run .lookupSwitch ["lookupswitch"]
    ++ run .none ["ireturn", "lreturn", "freturn", "dreturn", "areturn", "return"]
    ++ run .constant ["getstatic", "putstatic", "getfield", "putfield", "invokevirtual",
        "invokespecial", "invokestatic"]
    ++ run .invokeInterface ["invokeinterface"]
    ++ run .invokeDynamic ["invokedynamic"]
    ++ run .constant ["new"]
    ++ run .uint8 ["newarray"]
    ++ run .constant ["anewarray"]
    ++ run .none ["arraylength", "athrow"]
    ++ run .constant ["checkcast", "instanceof"]
    ++ run .none ["monitorenter", "monitorexit"]
    ++ run .wide ["wide"]
    ++ run .multiNewArray ["multianewarray"]
    ++ run .branch16 ["ifnull", "ifnonnull"]
    ++ run .branch32 ["goto_w", "jsr_w"]
    ++ run .none ["breakpoint"]

/-- What is known of a byte as an opcode. -/
def info? (opcode : UInt8) : Option OpcodeInfo := table[opcode.toNat]?

/-- The mnemonic of an opcode; a byte that is none has an empty one. -/
def mnemonic (opcode : UInt8) : String :=
  match info? opcode with
  | some info => info.mnemonic
  | none => ""

/-! ## Opcodes that refer to symbols -/

def ldc : UInt8 := 0x12
def ldcWide : UInt8 := 0x13
def getStatic : UInt8 := 0xB2
def putStatic : UInt8 := 0xB3
def getField : UInt8 := 0xB4
def putField : UInt8 := 0xB5
def invokeVirtual : UInt8 := 0xB6
def invokeSpecial : UInt8 := 0xB7
def invokeStatic : UInt8 := 0xB8
def invokeInterface : UInt8 := 0xB9
def invokeDynamic : UInt8 := 0xBA
def checkCast : UInt8 := 0xC0
def instanceOf : UInt8 := 0xC1

/-- The opcodes that read or write a field. -/
def accessesField (opcode : UInt8) : Bool := getStatic ≤ opcode && opcode ≤ putField

/-- The opcodes that invoke a method by reference. -/
def invokesMethod (opcode : UInt8) : Bool := invokeVirtual ≤ opcode && opcode ≤ invokeInterface

/-- The opcodes that load a constant, a class among others. -/
def loadsConstant (opcode : UInt8) : Bool := opcode == ldc || opcode == ldcWide

/-- The opcodes that test the class of an object. -/
def testsClass (opcode : UInt8) : Bool := opcode == checkCast || opcode == instanceOf

end Opcode

end Backref
