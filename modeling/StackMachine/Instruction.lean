-- SUMMARY: Instructions with their operands.
import StackMachine.Operand

/-!
# Instructions

`Instruction` holds what a machine executes. Instructions that differ only in
an arithmetic operation or in a jump condition share a constructor.
`Instruction.encode` gives the bytes of an instruction.
-/

namespace StackMachine

/-! ## Operations and conditions -/

inductive Arithmetic where
  | add | sub | mul | div
  deriving DecidableEq, Repr

/-- A condition on how two integers compare. -/
inductive Condition where
  | greater | less | equal | unequal
  deriving DecidableEq, Repr

def Condition.holds : Condition → Ordering → Bool
  | greater, order => order = .gt
  | less, order => order = .lt
  | equal, order => order = .eq
  | unequal, order => order ≠ .eq

/-! ## Instructions -/

inductive Instruction where
  | halt (code : UInt8)
  | pushInt (i : Int64)
  | pushString (b : Bytes)
  | pushRegister (r : Register)
  | pop
  | popRegister (r : Register)
  /-- Copy the top of the stack into a register. -/
  | store (r : Register)
  | swap
  | dup
  | arithmetic (op : Arithmetic)
  | setInt (r : Register) (i : Int64)
  | setString (r : Register) (b : Bytes)
  | jump (target : Int64)
  /-- Jump if the top of the stack compares with zero in this way. -/
  | jumpTop (c : Condition) (target : Int64)
  | jumpRegister (r : Register)
  | print
  | printRegister (r : Register)
  | dump
  | dumpRegisters
  | ret
  | call (target : Int64)
  | concat
  /-- Copy the slot that lies so many below the frame into a register. -/
  | param (r : Register) (offset : Int64)
  | compare (left right : Register)
  /-- Jump if the last comparison came out in this way. -/
  | jumpFlag (c : Condition) (target : Int64)
  /-- Turn tracing on or off. -/
  | step
  deriving DecidableEq, Repr

namespace Instruction

def opcode : Instruction → Opcode
  | halt _ => .halt
  | pushInt _ => .pushInt
  | pushString _ => .pushString
  | pushRegister _ => .pushRegister
  | pop => .pop
  | popRegister _ => .popRegister
  | store _ => .store
  | swap => .swap
  | dup => .dup
  | arithmetic .add => .add
  | arithmetic .sub => .sub
  | arithmetic .mul => .mul
  | arithmetic .div => .div
  | setInt _ _ => .setInt
  | setString _ _ => .setString
  | jump _ => .jump
  | jumpTop .greater _ => .jumpPositive
  | jumpTop .less _ => .jumpNegative
  | jumpTop .equal _ => .jumpZero
  | jumpTop .unequal _ => .jumpNonzero
  | jumpRegister _ => .jumpRegister
  | print => .print
  | printRegister _ => .printRegister
  | dump => .dump
  | dumpRegisters => .dumpRegisters
  | ret => .ret
  | call _ => .call
  | concat => .concat
  | param _ _ => .param
  | compare _ _ => .compare
  | jumpFlag .greater _ => .jumpGreater
  | jumpFlag .less _ => .jumpLess
  | jumpFlag .equal _ => .jumpEqual
  | jumpFlag .unequal _ => .jumpUnequal
  | step => .step

def operands : Instruction → List Operand
  | halt code => [.exitCode code]
  | pushInt i => [.integer i.toInt]
  | pushString b => [.string b]
  | pushRegister r => [.register r]
  | popRegister r => [.register r]
  | store r => [.register r]
  | setInt r i => [.register r, .integer i.toInt]
  | setString r b => [.register r, .string b]
  | jump target => [.integer target.toInt]
  | jumpTop _ target => [.integer target.toInt]
  | jumpRegister r => [.register r]
  | printRegister r => [.register r]
  | call target => [.integer target.toInt]
  | param r offset => [.register r, .integer offset.toInt]
  | compare left right => [.register left, .register right]
  | jumpFlag _ target => [.integer target.toInt]
  | pop | swap | dup | arithmetic _ | print | dump | dumpRegisters | ret | concat | step => []

/-- The bytes of an instruction in a program. -/
def encode (i : Instruction) : Bytes :=
  i.opcode.byte :: i.operands.flatMap Operand.encode

end Instruction

end StackMachine
