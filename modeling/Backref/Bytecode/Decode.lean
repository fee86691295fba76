import Backref.Bytecode.Instruction
import Backref.Bytes.Reader

/-!
# Decoding instructions

`Instruction.read` reads one instruction from a cursor over a whole code
array: the padding of the two switches depends on the position in it.
`Instruction.readAll` reads to the end of the data, and a `Walk` yields the
instructions of a code array one by one, up to the first that cannot be read.
-/

namespace Backref

open Reader

namespace Operand

/-- Makes sure that `n` bytes lie ahead. -/
def require (n : Nat) : Reader Unit := do
  let _ ← endOf n

/-- Reads the operand of a `tableswitch`. -/
def readTableSwitch : Reader Operand := do
  align 4
  let default ← int Int32
  let low ← int Int32
  let high ← int Int32
  if high < low then
    malformed (.tableBounds low high)
  else
    let count := (high.toInt - low.toInt + 1).toNat
    require (count * 4)
    return tableSwitch default low high (← times count (int Int32))

/-- Reads a value of a `lookupswitch` and its offset. -/
def readPair : Reader (Int32 × Int32) := do
  let value ← int Int32
  let offset ← int Int32
  return (value, offset)

/-- Reads the operand of a `lookupswitch`. -/
def readLookupSwitch : Reader Operand := do
  align 4
  let default ← int Int32
  let count ← int Int32
  if count < 0 then
    malformed (.negativePairCount count)
  else
    let count := count.toInt.toNat
    require (count * 8)
    return lookupSwitch default (← times count readPair)

/-- Reads an operand. A prefix has none of its own. -/
def read : OperandForm → Reader Operand
  | .none | .wide => pure none
  | .int8 => do return int8 (← int Int8)
  | .int16 => do return int16 (← int Int16)
  | .uint8 => do return uint8 (← int UInt8)
  | .narrowConstant => do return constant (← int UInt8).toUInt16
  | .constant => do return constant (← int UInt16)
  | .slot => do return slot (← int UInt8).toUInt16
  | .increment => do return increment (← int UInt8).toUInt16 (← int Int8).toInt16
  | .branch16 => do return branch (← int Int16).toInt32
  | .branch32 => do return branch (← int Int32)
  | .tableSwitch => readTableSwitch
  | .lookupSwitch => readLookupSwitch
  | .invokeInterface => do
    let index ← int UInt16
    let count ← int UInt8
    skip 1
    return invokeInterface index count
  | .invokeDynamic => do
    let index ← int UInt16
    skip 2
    return invokeDynamic index
  | .multiNewArray => do return multiNewArray (← int UInt16) (← int UInt8)

/-- Reads an operand behind a `wide` prefix, which only the forms with a
local variable allow. -/
def readWide (opcode : UInt8) (info : OpcodeInfo) : Reader Operand :=
  match info.form with
  | .slot => do return slot (← int UInt16)
  | .increment => do return increment (← int UInt16) (← int Int16)
  | _ => malformed (.notWidened opcode info.mnemonic)

end Operand

namespace Instruction

/-- Reads an opcode. -/
def readOpcode : Reader (UInt8 × OpcodeInfo) := do
  let opcode ← int UInt8
  match Opcode.info? opcode with
  | some info => return (opcode, info)
  | none => malformed (.opcode opcode)

/-- Reads an instruction. -/
def read : Reader Instruction := do
  let offset ← position
  let (opcode, info) ← readOpcode
  if info.form = .wide then
    let (opcode, info) ← readOpcode
    let operand ← Operand.readWide opcode info
    let stop ← position
    return ⟨offset, stop - offset, opcode, true, operand⟩
  else
    let operand ← Operand.read info.form
    let stop ← position
    return ⟨offset, stop - offset, opcode, false, operand⟩

/-- Reads up to `fuel` instructions, as long as there are more data. -/
def readUpTo : (fuel : Nat) → (seen : Array Instruction) → Reader (Array Instruction)
  | 0, seen => pure seen
  | fuel + 1, seen => do
    if ← hasMore then readUpTo fuel (seen.push (← read)) else return seen

/-- Reads instructions to the end of the data. Each takes a byte at least. -/
def readAll : Reader (Array Instruction) := fun c => readUpTo c.left #[] c

end Instruction

/-- A walk through a code array, instruction by instruction. -/
structure Walk where
  cursor : Cursor
  /-- An instruction could not be read, which ends the walk. -/
  failed : Bool

namespace Walk

/-- The walk that starts at the first instruction. -/
def start (code : Bytes) : Walk := ⟨Cursor.ofBytes code, false⟩

/-- The next item of a walk, if it has not ended. -/
def next? (w : Walk) : Option (Except Fault Instruction × Walk) :=
  if w.failed || w.cursor.pos = w.cursor.size then none
  else
    match Instruction.read w.cursor with
    | .ok i cursor => some (.ok i, ⟨cursor, false⟩)
    | .error fault cursor => some (.error fault, ⟨cursor, true⟩)

/-- The first `fuel` items of a walk, behind those in `seen`. -/
def itemsOnto : (fuel : Nat) → (seen : Array (Except Fault Instruction)) → Walk →
    Array (Except Fault Instruction)
  | 0, seen, _ => seen
  | fuel + 1, seen, w =>
    match w.next? with
    | none => seen
    | some (item, w) => itemsOnto fuel (seen.push item) w

/-- All items of the walk through a code array: its instructions in order, and
last the fault of one that cannot be read. Each item takes a byte at least. -/
def items (code : Bytes) : Array (Except Fault Instruction) :=
  itemsOnto code.length #[] (start code)

end Walk

end Backref
