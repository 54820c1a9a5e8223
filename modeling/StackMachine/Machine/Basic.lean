-- SUMMARY: The state of a machine and the elementary actions on it.
import StackMachine.Instruction
import StackMachine.Journal
import StackMachine.Memory
import StackMachine.RegisterFile
import StackMachine.Sink

/-!
# The machine

A machine has a memory, registers, the flag of the last comparison and an
output. The lowest `SP` slots of the stack are live. An action changes the
machine and yields a result, or a trap that leaves the machine as it is then:
a fault, a malformation of the program, or an access outside the stack, which
would mean that `SP` exceeds the number of slots.
-/

namespace StackMachine

/-! ## State -/

/-- How a machine is set up. -/
structure Config where
  /-- The number of slots of the stack. -/
  stackSize : Nat := 16384
  /-- Record each executed instruction in the journal. -/
  tracing : Bool := false
  /-- The number of bytes that the output takes, if limited. -/
  outputLimit : Option Nat := none
  /-- The events that the journal keeps. -/
  journal : Option Level := none
  deriving DecidableEq, Repr

structure Machine where
  memory : Memory
  registers : RegisterFile
  /-- How the operands of the last comparison compared. -/
  flag : Ordering
  /-- The fault that ended the program. -/
  fault : Option Fault
  /-- The exit code with which the program halted. -/
  exitCode : Option UInt8
  tracing : Bool
  /-- Was the machine asked to stop before the next instruction? -/
  terminating : Bool
  output : Sink
  journal : Journal
  deriving DecidableEq, Repr

namespace Machine

/-- A machine before its first instruction. -/
def ofProgram (program : Bytes) (config : Config) : Machine where
  memory := .ofProgram program config.stackSize
  registers := .fresh
  flag := .eq
  fault := none
  exitCode := none
  tracing := config.tracing
  terminating := false
  output := .ofLimit config.outputLimit
  journal := .ofLimit config.journal

/-- The number of live slots. -/
def height (m : Machine) : Nat :=
  m.registers.sp.toUInt64.toNat

/-- The live slots, bottom first. -/
def stack? (m : Machine) : Option (List Value) :=
  m.memory.stack? m.height

def snapshot? (m : Machine) : Option Snapshot :=
  m.stack?.map fun stack =>
    { pc := m.registers.pc, sp := m.registers.sp, fp := m.registers.fp, rt := m.registers.rt,
      flag := m.flag, stack }

end Machine

/-! ## Actions -/

/-- Why an action stopped. -/
inductive Trap where
  | fault (f : Fault)
  | malformed (f : Malformation)
  /-- An access outside the stack. -/
  | outOfBounds
  deriving DecidableEq, Repr

/-- An action on a machine. A trap keeps what the action had changed. -/
abbrev Action := EStateM Trap Machine

namespace Action

/-- Stop with a fault. -/
def fail (f : Fault) : Action α :=
  throw (.fault f)

/-- Record an event of a level that shows the state of the machine. -/
def record (level : Level) (event : Snapshot → Event) : Action Unit := fun m =>
  if m.journal.keeps level then
    match m.snapshot? with
    | none => .error .outOfBounds m
    | some s => .ok () { m with journal := m.journal.add (event s) }
  else .ok () m

/-! ## Stack -/

/-- The top of the stack, for the instruction `op`. -/
def top (op : Opcode) : Action Value := fun m =>
  if m.height = 0 then .error (.fault (.stackUnderflow op)) m
  else
    match m.memory.slot? (m.height - 1) with
    | none => .error .outOfBounds m
    | some v => .ok v m

/-- Remove the top of the stack, for the instruction `op`. The slot is zero
    afterwards. -/
def pop (op : Opcode) : Action Value := fun m =>
  if m.height = 0 then .error (.fault (.stackUnderflow op)) m
  else
    match m.memory.take? (m.height - 1) with
    | none => .error .outOfBounds m
    | some (v, memory) =>
      .ok v { m with memory, registers := { m.registers with sp := m.registers.sp - 1 } }

def push (v : Value) : Action Unit := fun m =>
  if m.height < m.memory.capacity then
    match m.memory.put? m.height v with
    | none => .error .outOfBounds m
    | some memory =>
      .ok () { m with
        memory
        registers := { m.registers with sp := m.registers.sp + 1 }
        journal := m.journal.add (.stored m.height v) }
  else .error (.fault .stackOverflow) m

/-- Exchange the two topmost values. -/
def swapTop : Action Unit := fun m =>
  if m.height < 2 then .error (.fault (.stackUnderflow .swap)) m
  else
    match m.memory.swap? (m.height - 1) (m.height - 2) with
    | none => .error .outOfBounds m
    | some memory => .ok () { m with memory }

/-! ## Registers -/

def register (r : Register) : Action Value :=
  return (← get).registers.get r

/-- Refuse an address outside the program. -/
def checkTarget (target : Int64) : Action Unit := fun m =>
  if m.memory.inCode target then .ok () m else .error (.fault (.jumpOutOfRange target)) m

/-- Continue at an address of the program. -/
def jump (target : Int64) : Action Unit := do
  checkTarget target
  modify fun m => { m with registers := { m.registers with pc := target } }

/-- Is a height of the stack out of its range? -/
def isOffStack (m : Machine) (sp : Int64) : Bool :=
  sp.toInt < 0 || m.memory.capacity < sp.toInt

/-- Write a register. The program counter takes addresses of the program, the
    stack pointer heights of the stack, and both take integers only, as the
    other special registers do. -/
def setRegister (r : Register) (v : Value) : Action Unit := fun m =>
  match r, v with
  | .pc, .int target => jump target m
  | .sp, .int sp =>
    if isOffStack m sp then .error (.fault (.stackPointerOutOfRange sp)) m
    else .ok () { m with registers := { m.registers with sp } }
  | r, v =>
    match m.registers.set? r v with
    | none => .error (.fault (.specialRegister r)) m
    | some registers => .ok () { m with registers }

/-! ## Output -/

/-- Print a line. What fits of it is printed even if not all of it does. -/
def printLine (line : Text) : Action Unit := fun m =>
  let bytes := Utf8.encode (line ++ ['\n'])
  if m.output.fits bytes.length then .ok () { m with output := m.output.write bytes }
  else .error (.fault .output) { m with output := m.output.write bytes }

end Action

end StackMachine
