-- SUMMARY: What each instruction does to a machine.
import StackMachine.Machine.Fetch

/-!
# Executing

`Action.execute` performs an instruction whose operands have been read. Checks
come before effects, but for the operands that an operation pops: those stay
popped if the operation then fails.
-/

namespace StackMachine

/-! ## Operations on values -/

namespace Arithmetic

def opcode : Arithmetic → Opcode
  | add => .add
  | sub => .sub
  | mul => .mul
  | div => .div

/-- The result of an operation modulo `2 ^ 64`; a quotient is rounded towards
    zero. There is none for a division by zero. -/
def result? (left right : Int64) : Arithmetic → Option Int64
  | add => some (left + right)
  | sub => some (left - right)
  | mul => some (left * right)
  | div => if right = 0 then none else some (left / right)

end Arithmetic

/-! ## Instructions -/

namespace Action

/-- The integer that a value is, for the instruction `op`. -/
def integer (op : Opcode) : Value → Action Int64
  | .int i => pure i
  | .bytes _ => fail (.typeMismatch op .integers)

/-- Replace the two topmost values by the result of an operation on them. -/
def arithmetic (op : Arithmetic) : Action Unit := do
  let right ← pop op.opcode
  let left ← pop op.opcode
  match left, right with
  | .int left, .int right =>
    match op.result? left right with
    | some result => push (.int result)
    | none => fail (.divisionByZero op.opcode)
  | _, _ => fail (.typeMismatch op.opcode .integers)

/-- Replace the two topmost byte strings by the deeper one followed by the
    other. -/
def concat : Action Unit := do
  let right ← pop .concat
  let left ← pop .concat
  match left, right with
  | .bytes left, .bytes right => push (.bytes (left ++ right))
  | _, _ => fail (.typeMismatch .concat .strings)

/-- Jump if the top of the stack compares with zero as the condition says. -/
def jumpTop (c : Condition) (target : Int64) : Action Unit := do
  let op := (Instruction.jumpTop c target).opcode
  let i ← integer op (← top op)
  if c.holds (compare i.toInt 0) then jump target

/-- Jump to a subroutine. The return address is the next instruction, the frame
    the present height of the stack. -/
def call (target : Int64) : Action Unit := do
  checkTarget target
  modify fun m => { m with
    registers := { m.registers with pc := target, rt := m.registers.pc, fp := m.registers.sp } }

/-- Copy the slot that lies `offset` below the frame, if it is live. -/
def param (r : Register) (offset : Int64) : Action Unit := do
  let m ← get
  let index := m.registers.fp - offset
  if index.toInt < 0 ∨ m.height ≤ index.toInt then fail (.paramOutOfRange index)
  else
    match m.memory.slot? index.toInt.toNat with
    | none => throw .outOfBounds
    | some v => setRegister r v

/-- Print the live stack. -/
def dump : Action Unit := do
  match (← get).stack? with
  | none => throw .outOfBounds
  | some stack => printLine (Value.renderStack stack)

/-- Turn tracing on or off. -/
def toggleTracing : Action Unit :=
  modify fun m => { m with
    tracing := !m.tracing
    journal := m.journal.add (.tracingSet !m.tracing) }

/-- Perform an instruction; the result is the exit code if it halts. -/
def execute : Instruction → Action (Option UInt8)
  | .halt code => return some code
  | .pushInt i => do push (.int i); return none
  | .pushString b => do push (.bytes b); return none
  | .pushRegister r => do push (← register r); return none
  | .pop => do discard (pop .pop); return none
  | .popRegister r => do setRegister r (← pop .popRegister); return none
  | .store r => do setRegister r (← top .store); return none
  | .swap => do swapTop; return none
  | .dup => do push (← top .dup); return none
  | .arithmetic op => do arithmetic op; return none
  | .setInt r i => do setRegister r (.int i); return none
  | .setString r b => do setRegister r (.bytes b); return none
  | .jump target => do jump target; return none
  | .jumpTop c target => do jumpTop c target; return none
  | .jumpRegister r => do jump (← integer .jumpRegister (← register r)); return none
  | .print => do printLine (← top .print).render; return none
  | .printRegister r => do printLine (← register r).render; return none
  | .dump => do dump; return none
  | .dumpRegisters => do printLine (← get).registers.render; return none
  | .ret => do jump (← get).registers.rt; return none
  | .call target => do call target; return none
  | .concat => do concat; return none
  | .param r offset => do param r offset; return none
  | .compare left right => do
    match ← register left, ← register right with
    | .int left, .int right => modify fun m => { m with flag := Ord.compare left.toInt right.toInt }
    | _, _ => fail (.typeMismatch .compare .integers)
    return none
  | .jumpFlag c target => do
    if c.holds (← get).flag then jump target
    return none
  | .step => do toggleTracing; return none

end Action

end StackMachine
