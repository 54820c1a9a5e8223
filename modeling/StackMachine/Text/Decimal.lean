-- SUMMARY: Decimal integers: printing, and reading signed 64-bit numbers.
import StackMachine.Text.Basic

/-!
# Decimal numbers

`Decimal.ofInt` prints an integer and `Decimal.parse?` reads one back. Reading
takes one optional sign and one or more digits, leading zeros allowed, and
refuses a number that needs more than 64 bits.
-/

namespace StackMachine.Decimal

/-- The decimal digits of a natural number. -/
def ofNat (n : Nat) : Text :=
  Nat.toDigits 10 n

/-- A number's decimal digits, behind a minus sign if it is negative. -/
def ofInt : Int → Text
  | .ofNat n => ofNat n
  | .negSucc n => '-' :: ofNat (n + 1)

/-- At least four digits, filled up with zeros from the left. -/
def padded (n : Nat) : Text :=
  (ofNat n).leftpad 4 '0'

/-- The value of a text that holds digits only, and at least one. -/
def natural? (t : Text) : Option Nat :=
  if t ≠ [] ∧ t.all Char.isDigit then some (Nat.ofDigitChars 10 t 0) else none

/-- Can 64 bits hold the number? -/
def IsWord (v : Int) : Prop :=
  -0x8000000000000000 ≤ v ∧ v < 0x8000000000000000

instance (v : Int) : Decidable (IsWord v) :=
  inferInstanceAs (Decidable (_ ∧ _))

/-- The number before its range is checked. -/
def integer? : Text → Option Int
  | '-' :: t => (natural? t).map (-·)
  | '+' :: t => (natural? t).map (·)
  | t => (natural? t).map (·)

/-- Read a signed 64-bit number. -/
def parse? (t : Text) : Option Int :=
  (integer? t).filter (IsWord ·)

theorem natural?_ofNat (n : Nat) : natural? (ofNat n) = some n := by
  have hne : ofNat n ≠ [] := Nat.toDigits_ne_nil
  have hall : (ofNat n).all Char.isDigit := by
    simp only [List.all_eq_true]
    exact fun c hc => Nat.isDigit_of_mem_toDigits (by decide) (by decide) hc
  rw [natural?, if_pos ⟨hne, hall⟩]
  exact congrArg some Nat.ofDigitChars_ten_toDigits

end StackMachine.Decimal
