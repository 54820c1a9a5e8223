-- SUMMARY: Byte strings, their hexadecimal texts, and lengths as two bytes.
import StackMachine.Text.Hex

/-!
# Byte strings

Programs, images and string values are byte strings. `Bytes.hex` writes one as
two digits per byte, `Bytes.dump` as separate `0x`-prefixed bytes.
-/

namespace StackMachine

/-- A byte string, as the list of its bytes. -/
abbrev Bytes := List UInt8

namespace Bytes

/-- Two digits per byte and nothing between them. -/
def hex (bytes : Bytes) : Text :=
  bytes.flatMap fun b => Hex.digits 2 b.toNat

/-- The bytes one by one, a space between each two. -/
def dump (bytes : Bytes) : Text :=
  [' '].intercalate (bytes.map Hex.byte)

/-- The two bytes of a length, the more significant one first. -/
def ofLength (n : Nat) : Bytes :=
  [(n / 256).toUInt8, n.toUInt8]

/-- The length that two bytes stand for. -/
def toLength (high low : UInt8) : Nat :=
  high.toNat * 256 + low.toNat

theorem toLength_ofLength {n : Nat} (h : n < 65536) :
    toLength (n / 256).toUInt8 n.toUInt8 = n := by
  simp [toLength]
  omega

end Bytes

end StackMachine
