-- SUMMARY: Reading instructions byte by byte at the program counter.
import StackMachine.Machine.Basic

/-!
# Fetching

An instruction is fetched byte by byte, and the program counter moves past each
byte that was there to read. A malformation leaves it where the reading
stopped. Fetching looks at the program and the program counter only.
-/

namespace StackMachine

/-- A reading of program bytes that moves the program counter. -/
abbrev Fetch := ReaderT Memory (EStateM Malformation Int64)

namespace Fetch

def byte : Fetch UInt8 := fun memory pc =>
  match memory.byte? pc with
  | some b => .ok b (pc + 1)
  | none => .error (.unexpectedEnd pc.toInt) pc

/-- The next `n` bytes. -/
def bytes : (n : Nat) → Fetch Bytes
  | 0 => return []
  | n + 1 => do
    let b ← byte
    let rest ← bytes n
    return b :: rest

def opcode : Fetch Opcode := do
  let offset ← get
  let b ← byte
  match Opcode.ofByte? b with
  | some op => return op
  | none => throw (.unknownOpcode b offset.toInt)

def register : Fetch Register := do
  let offset ← get
  let b ← byte
  match Register.ofByte? b with
  | some r => return r
  | none => throw (.unknownRegister b offset.toInt)

def integer : Fetch Int64 := do
  let offset ← get
  let slot ← bytes Slot.width
  match Slot.decodeWord? slot with
  | some v => return v
  | none => throw (.malformedInteger offset.toInt)

def string : Fetch Bytes := do
  let offset ← get
  let high ← byte
  let low ← byte
  let length := Bytes.toLength high low
  if length > maxStringLength then throw (.malformedString length offset.toInt)
  else bytes length

/-- The instruction of an opcode, whose operands follow. -/
def instruction : Opcode → Fetch Instruction
  | .halt => .halt <$> byte
  | .pushInt => .pushInt <$> integer
  | .pushString => .pushString <$> string
  | .pushRegister => .pushRegister <$> register
  | .pop => pure .pop
  | .popRegister => .popRegister <$> register
  | .store => .store <$> register
  | .swap => pure .swap
  | .dup => pure .dup
  | .add => pure (.arithmetic .add)
  | .sub => pure (.arithmetic .sub)
  | .mul => pure (.arithmetic .mul)
  | .div => pure (.arithmetic .div)
  | .setInt => .setInt <$> register <*> integer
  | .setString => .setString <$> register <*> string
  | .jump => .jump <$> integer
  | .jumpPositive => .jumpTop .greater <$> integer
  | .jumpNegative => .jumpTop .less <$> integer
  | .jumpZero => .jumpTop .equal <$> integer
  | .jumpNonzero => .jumpTop .unequal <$> integer
  | .jumpRegister => .jumpRegister <$> register
  | .print => pure .print
  | .printRegister => .printRegister <$> register
  | .dump => pure .dump
  | .dumpRegisters => pure .dumpRegisters
  | .ret => pure .ret
  | .call => .call <$> integer
  | .concat => pure .concat
  | .param => .param <$> register <*> integer
  | .compare => .compare <$> register <*> register
  | .jumpGreater => .jumpFlag .greater <$> integer
  | .jumpLess => .jumpFlag .less <$> integer
  | .jumpEqual => .jumpFlag .equal <$> integer
  | .jumpUnequal => .jumpFlag .unequal <$> integer
  | .step => pure .step

end Fetch

/-- Read at the program counter of the machine. -/
def Action.fetch (reading : Fetch α) : Action α := fun m =>
  match reading m.memory m.registers.pc with
  | .ok a pc => .ok a { m with registers := { m.registers with pc } }
  | .error f pc => .error (.malformed f) { m with registers := { m.registers with pc } }

end StackMachine
