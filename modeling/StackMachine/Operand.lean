-- SUMMARY: Operands with their values: encoded bytes and text.
import StackMachine.Opcode
import StackMachine.Register
import StackMachine.Slot
import StackMachine.Value

/-!
# Operands

The operands of an instruction with their values, the bytes that encode them
and the text that a listing shows for them.
-/

namespace StackMachine

/-- The greatest length of a string operand in bytes. -/
def maxStringLength : Nat := 32767

inductive Operand where
  | exitCode (code : UInt8)
  | register (r : Register)
  | integer (v : Int)
  | string (b : Bytes)
  deriving DecidableEq, Repr

namespace Operand

/-- The bytes of an operand in a program. -/
def encode : Operand → Bytes
  | exitCode code => [code]
  | register r => [r.byte]
  | integer v => Slot.encode v
  | string b => Bytes.ofLength b.length ++ b

/-- The text of an operand in a listing. -/
def render : Operand → Text
  | exitCode code => Decimal.ofNat code.toNat
  | register r => '$' :: r.name
  | integer v => Decimal.ofInt v
  | string b => (Value.bytes b).render

end Operand

end StackMachine
