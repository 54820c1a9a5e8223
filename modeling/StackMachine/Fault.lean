-- SUMMARY: Why a machine stops early: faults of a running program and malformed programs.
import StackMachine.Opcode
import StackMachine.Register
import StackMachine.Text.Decimal

/-!
# Faults and malformations

A fault is an error of a well-formed program: it ends the program with exit
code 1. A malformation means that the bytes at the program counter, or at an
offset of a listing, are no instruction; no exit code stands for it.
-/

namespace StackMachine

/-! ## Faults -/

/-- The kinds of values that an instruction may insist on. -/
inductive ValueKind where
  | integers
  | strings
  deriving DecidableEq, Repr

def ValueKind.name : ValueKind → Text
  | integers => "integers".toList
  | strings => "strings".toList

inductive Fault where
  | typeMismatch (op : Opcode) (expected : ValueKind)
  | divisionByZero (op : Opcode)
  | stackOverflow
  | stackUnderflow (op : Opcode)
  | stackPointerOutOfRange (sp : Int64)
  | jumpOutOfRange (target : Int64)
  | paramOutOfRange (index : Int64)
  /-- A byte string was to go into a special register. -/
  | specialRegister (r : Register)
  /-- The output took no more, or only a part. -/
  | output
  | terminated
  deriving DecidableEq, Repr

def Fault.message : Fault → Text
  | typeMismatch op expected => op.mnemonic ++ " only works on ".toList ++ expected.name
  | divisionByZero op => op.mnemonic ++ " division by zero".toList
  | stackOverflow => "stack overflow".toList
  | stackUnderflow op => "stack underflow in ".toList ++ op.mnemonic
  | stackPointerOutOfRange sp =>
    "stack pointer ".toList ++ Decimal.ofInt sp.toInt ++ " out of range".toList
  | jumpOutOfRange target =>
    "jump target ".toList ++ Decimal.ofInt target.toInt ++ " out of range".toList
  | paramOutOfRange index =>
    "PARAM slot ".toList ++ Decimal.ofInt index.toInt ++ " outside the stack".toList
  | specialRegister r => "register ".toList ++ r.name ++ " only holds integers".toList
  | output => "output failed: failed to write whole buffer".toList
  | terminated => "terminated".toList

/-! ## Malformations -/

/-- Why bytes are no instruction. Offsets are those of the byte or of the first
    byte of the operand; an unexpected end is where a byte is missing. -/
inductive Malformation where
  | unexpectedEnd (offset : Int)
  | unknownOpcode (byte : UInt8) (offset : Int)
  | unknownRegister (byte : UInt8) (offset : Int)
  | malformedInteger (offset : Int)
  | malformedString (length : Nat) (offset : Int)
  deriving DecidableEq, Repr

def Malformation.message : Malformation → Text
  | unexpectedEnd offset =>
    "unexpected end of program at offset ".toList ++ Decimal.ofInt offset
  | unknownOpcode byte offset =>
    "unknown opcode ".toList ++ Hex.byte byte ++ " at offset ".toList ++ Decimal.ofInt offset
  | unknownRegister byte offset =>
    "unknown register ".toList ++ Hex.byte byte ++ " at offset ".toList ++ Decimal.ofInt offset
  | malformedInteger offset =>
    "malformed integer operand at offset ".toList ++ Decimal.ofInt offset
  | malformedString length offset =>
    "string length ".toList ++ Decimal.ofNat length ++ " exceeds limit at offset ".toList
      ++ Decimal.ofInt offset

end StackMachine
