-- SUMMARY: The fourteen registers: numbers and names.
import StackMachine.Text.Basic

/-!
# Registers

Ten general registers `A` to `J` hold any value. Four special registers hold
integers: the program counter `PC`, the stack pointer `SP`, the frame pointer
`FP` and the return address `RT`. The registers are numbered in this order.
-/

namespace StackMachine

inductive Register where
  | general (i : Fin 10)
  | pc
  | sp
  | fp
  | rt
  deriving DecidableEq, Repr

namespace Register

/-- All registers in the order of their numbers. -/
def all : List Register :=
  (List.finRange 10).map general ++ [pc, sp, fp, rt]

/-- The number of the register in an operand. -/
def byte : Register → UInt8
  | general i => i.val.toUInt8
  | pc => 10
  | sp => 11
  | fp => 12
  | rt => 13

/-- The register of a number. -/
def ofByte? (b : UInt8) : Option Register :=
  all[b.toNat]?

@[simp] theorem ofByte?_byte (r : Register) : ofByte? r.byte = some r := by
  cases r with
  | general i => revert i; decide
  | pc => rfl
  | sp => rfl
  | fp => rfl
  | rt => rfl

/-- The list of all registers has each at the place that its number says. -/
theorem byte_getElem_all : ∀ i : Fin all.length, all[i].byte = i.val.toUInt8 := by
  decide

theorem byte_of_ofByte? {b : UInt8} {r : Register} (h : ofByte? b = some r) : r.byte = b := by
  obtain ⟨hb, rfl⟩ := List.getElem?_eq_some_iff.1 h
  have hi : all[b.toNat].byte = b.toNat.toUInt8 := byte_getElem_all ⟨b.toNat, hb⟩
  simp [hi]

/-- The name of the register, without the `$` that source text puts before it. -/
def name : Register → Text
  | general i => ["ABCDEFGHIJ".toList[i]]
  | pc => "PC".toList
  | sp => "SP".toList
  | fp => "FP".toList
  | rt => "RT".toList

/-- The register of a name in letters of either case. -/
def ofName? (name : Text) : Option Register :=
  let name := name.map Char.toUpper
  all.find? fun r => r.name = name

@[simp] theorem ofName?_name (r : Register) : ofName? r.name = some r := by
  cases r with
  | general i => revert i; decide
  | pc => rfl
  | sp => rfl
  | fp => rfl
  | rt => rfl

/-- Does the register hold integers only? -/
def isSpecial : Register → Bool
  | general _ => false
  | _ => true

end Register

end StackMachine
