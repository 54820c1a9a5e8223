-- SUMMARY: Values of registers and stack slots, and their texts.
import StackMachine.Text.Decimal
import StackMachine.Text.Quoted
import StackMachine.Text.Utf8

/-!
# Values

A register or stack slot holds a signed 64-bit integer or a byte string. An
integer is shown in decimal, a byte string as the quoted text that its bytes
decode to.
-/

namespace StackMachine

inductive Value where
  | int (i : Int64)
  | bytes (b : Bytes)
  deriving DecidableEq, Repr

namespace Value

/-- What fresh registers and slots hold. -/
def zero : Value := .int 0

instance : Inhabited Value := ⟨zero⟩

/-- The text of a value. -/
def render : Value → Text
  | .int i => Decimal.ofInt i.toInt
  | .bytes b => Quoted.encode (Utf8.decodeLossy b)

/-- The text of a stack, given bottom first and shown top first. -/
def renderStack (stack : List Value) : Text :=
  '[' :: ((", ".toList).intercalate (stack.reverse.map render) ++ [']'])

end Value

end StackMachine
