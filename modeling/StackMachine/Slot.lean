-- SUMMARY: Integer slots: zigzag and base 128 in eight bytes.
import StackMachine.Bytes

/-!
# Integer slots

An integer operand takes eight bytes whatever its value. The signed word is
folded into an unsigned one (0, -1, 1, -2, … become 0, 1, 2, 3, …), which is
written in groups of seven bits, the lowest group first. Every byte but the last
group's has its top bit set, and zeros fill the slot. A word whose groups do not
end within the eight bytes has no slot.
-/

namespace StackMachine.Slot

/-- The number of bytes of a slot. -/
def width : Nat := 8

/-- The content of a slot whose integer is not known yet. -/
def blank : Bytes :=
  List.replicate width 0

/-! ## Words -/

/-- Fold the signed words into the unsigned ones, those near zero first. -/
def zigzagWord (v : Int64) : UInt64 :=
  ((v <<< 1) ^^^ (v >>> 63)).toUInt64

def unzigzagWord (z : UInt64) : Int64 :=
  (z >>> 1).toInt64 ^^^ -(z &&& 1).toInt64

/-- Write the groups of a word into `room` bytes, as long as there is room. -/
def write : (room : Nat) → (rest : UInt64) → Option Bytes
  | 0, _ => none
  | room + 1, rest =>
    if rest < 0x80 then some (rest.toUInt8 :: List.replicate room 0)
    else (write room (rest >>> 7)).map fun bytes => (rest.toUInt8 ||| 0x80) :: bytes

/-- Read groups up to the last one. The byte at `index` comes next, and `z` holds
    the groups before it. -/
def read : (index : Nat) → (z : UInt64) → Bytes → Option UInt64
  | _, _, [] => none
  | index, z, b :: bytes =>
    let z := z ||| (b &&& 0x7F).toUInt64 <<< (7 * index).toUInt64
    if b &&& 0x80 = 0 then some z else read (index + 1) z bytes

/-- The slot of a word, unless its groups go on behind the slot. -/
def encodeWord? (v : Int64) : Option Bytes :=
  write width (zigzagWord v)

/-- The word of a slot, if one of its bytes is a last group. -/
def decodeWord? (slot : Bytes) : Option Int64 :=
  (read 0 0 slot).map unzigzagWord

/-! ## Integers -/

/-- The slot of an integer that is a word and has one. -/
def encode? (v : Int) : Option Bytes :=
  if (Int64.ofInt v).toInt = v then encodeWord? (.ofInt v) else none

/-- The integer has a slot. -/
def Fits (v : Int) : Prop :=
  (encode? v).isSome

instance (v : Int) : Decidable (Fits v) :=
  inferInstanceAs (Decidable (_ = true))

/-- The slot of an integer that fits. -/
def encode (v : Int) : Bytes :=
  (encode? v).getD blank

/-- The integer of a slot, if its groups end in the slot. -/
def decode? (slot : Bytes) : Option Int :=
  (decodeWord? slot).map Int64.toInt

theorem encode?_of_fits {v : Int} (h : Fits v) : encode? v = some (encode v) := by
  obtain ⟨slot, hslot⟩ := Option.isSome_iff_exists.1 h
  rw [encode, hslot, Option.getD_some]

theorem encode?_of_not_fits {v : Int} (h : ¬ Fits v) : encode? v = none :=
  Option.not_isSome_iff_eq_none.1 h

theorem length_of_write {room : Nat} {z : UInt64} {bytes : Bytes}
    (h : write room z = some bytes) : bytes.length = room := by
  induction room generalizing z bytes with
  | zero => simp [write] at h
  | succ room ih =>
    rw [write] at h
    split at h
    · obtain rfl := Option.some.inj h
      simp
    · obtain ⟨rest, hrest, rfl⟩ := Option.map_eq_some_iff.1 h
      rw [List.length_cons, ih hrest]

theorem length_of_encode? {v : Int} {slot : Bytes} (h : encode? v = some slot) :
    slot.length = width := by
  rw [encode?] at h
  split at h
  · exact length_of_write h
  · simp at h

@[simp] theorem length_encode (v : Int) : (encode v).length = width := by
  rw [encode]
  cases h : encode? v with
  | none => rfl
  | some slot => exact length_of_encode? h

end StackMachine.Slot
