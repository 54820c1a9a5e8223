-- SUMMARY: Machine words whose arithmetic stays within 64 bits.
import Mathlib
import StackMachine.Machine.Basic

/-!
# Machine words

Counting a machine word up or down is exact as long as the result needs no more
than 64 bits. A stack pointer that is no negative number is the height of the
stack. Programs and stacks have fewer than `2 ^ 63` elements, as all arrays have:
theorems that count them up take this as a hypothesis, and no more.
-/

namespace StackMachine

namespace Word

theorem toInt_add_one {w : Int64} {bound : Nat} (hw : w.toInt < bound) (hbound : bound < 2 ^ 63) :
    (w + 1).toInt = w.toInt + 1 := by
  have hlow := w.le_toInt
  rw [Int64.toInt_add, Int64.toInt_one]
  exact Int.bmod_eq_of_le (by omega) (by omega)

theorem toInt_sub_one {w : Int64} (hw : 0 < w.toInt) : (w - 1).toInt = w.toInt - 1 := by
  have hhigh := w.toInt_lt
  rw [Int64.toInt_sub, Int64.toInt_one]
  exact Int.bmod_eq_of_le (by omega) (by omega)

/-- A word that is not negative is its two's complement. -/
theorem cast_toUInt64 {w : Int64} (h : 0 ≤ w.toInt) : (w.toUInt64.toNat : Int) = w.toInt := by
  have hle : 0 ≤ w := Int64.le_iff_toInt_le.2 (by simpa using h)
  rw [Int64.toNat_toUInt64_of_le hle]
  exact Int64.cast_toNatClampNeg _ hle

end Word

namespace Machine

theorem cast_height {m : Machine} (h : 0 ≤ m.registers.sp.toInt) :
    (m.height : Int) = m.registers.sp.toInt :=
  Word.cast_toUInt64 h

end Machine

end StackMachine
