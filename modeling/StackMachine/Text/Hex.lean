-- SUMMARY: Hexadecimal numbers.
import StackMachine.Text.Basic

/-!
# Hexadecimal numbers

Hexadecimal digits are lower-case. `Hex.byte` and `Hex.word` write a byte and a
machine word behind `0x`.
-/

namespace StackMachine.Hex

/-- The lower-case hexadecimal digits of `n`, at least `width` of them. -/
def digits (width n : Nat) : Text :=
  (Nat.toDigits 16 n).leftpad width '0'

/-- A byte as `0x` and two digits. -/
def byte (b : UInt8) : Text :=
  "0x".toList ++ digits 2 b.toNat

/-- A word as `0x` and four digits or more; a negative word shows its
    two's complement. -/
def word (w : Int64) : Text :=
  "0x".toList ++ digits 4 w.toUInt64.toNat

end StackMachine.Hex
