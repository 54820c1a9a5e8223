-- SUMMARY: Program bytes and the slots of the operand stack.
import StackMachine.Value

/-!
# Memory

The memory of a machine is the program, which never changes, and a stack of a
fixed number of slots. How many of the slots are live is not its business: the
callers pass the height. Access beyond the slots has no result.
-/

namespace StackMachine

structure Memory where
  code : Array UInt8
  slots : Array Value
  deriving DecidableEq, Repr

namespace Memory

/-- A program and a stack of that many slots, all zero. -/
def ofProgram (program : Bytes) (capacity : Nat) : Memory :=
  ⟨program.toArray, Array.replicate capacity .zero⟩

/-! ## Program -/

/-- Is the address that of a byte of the program? -/
def inCode (m : Memory) (address : Int64) : Bool :=
  0 ≤ address.toInt && address.toInt < m.code.size

/-- The byte at an address. -/
def byte? (m : Memory) (address : Int64) : Option UInt8 :=
  if 0 ≤ address.toInt then m.code[address.toInt.toNat]? else none

theorem isSome_byte? (m : Memory) (address : Int64) :
    (m.byte? address).isSome = m.inCode address := by
  unfold byte? inCode
  generalize address.toInt = a
  split
  · rename_i h
    obtain ⟨n, rfl⟩ := Int.eq_ofNat_of_zero_le h
    by_cases hn : n < m.code.size <;> simp [hn]
  · rename_i h
    simp [h]

/-! ## Stack -/

def capacity (m : Memory) : Nat :=
  m.slots.size

/-- The lowest `height` slots, bottom first. -/
def stack? (m : Memory) (height : Nat) : Option (List Value) :=
  if height ≤ m.capacity then some (m.slots.extract 0 height).toList else none

def slot? (m : Memory) (i : Nat) : Option Value :=
  m.slots[i]?

/-- The memory with a value in the slot of that index, if there is one. -/
def put (m : Memory) (i : Nat) (v : Value) : Memory :=
  { m with slots := m.slots.setIfInBounds i v }

/-- Write a slot. -/
def put? (m : Memory) (i : Nat) (v : Value) : Option Memory :=
  if i < m.capacity then some (m.put i v) else none

/-- The value of a slot, and the memory with zero left behind. -/
def take? (m : Memory) (i : Nat) : Option (Value × Memory) :=
  (m.slot? i).map fun v => (v, m.put i .zero)

/-- The memory with two slots exchanged, if there are slots of these indices. -/
def swap (m : Memory) (i j : Nat) : Memory :=
  { m with slots := m.slots.swapIfInBounds i j }

/-- Exchange two slots. -/
def swap? (m : Memory) (i j : Nat) : Option Memory :=
  if i < m.capacity ∧ j < m.capacity then some (m.swap i j) else none

/-! ## Laws -/

@[simp] theorem capacity_ofProgram (program : Bytes) (capacity : Nat) :
    (ofProgram program capacity).capacity = capacity := by
  simp [ofProgram, Memory.capacity]

@[simp] theorem capacity_put (m : Memory) (i : Nat) (v : Value) :
    (m.put i v).capacity = m.capacity := by
  simp [put, capacity]

@[simp] theorem capacity_swap (m : Memory) (i j : Nat) : (m.swap i j).capacity = m.capacity := by
  simp [swap, capacity]

@[simp] theorem byte?_put (m : Memory) (i : Nat) (v : Value) (address : Int64) :
    (m.put i v).byte? address = m.byte? address := rfl

@[simp] theorem byte?_swap (m : Memory) (i j : Nat) (address : Int64) :
    (m.swap i j).byte? address = m.byte? address := rfl

theorem slot?_put (m : Memory) (i j : Nat) (v : Value) :
    (m.put i v).slot? j = if i = j ∧ i < m.capacity then some v else m.slot? j := by
  unfold slot? put capacity
  rw [Array.getElem?_setIfInBounds]
  by_cases hij : i = j
  · subst hij
    by_cases hi : i < m.slots.size <;> simp [hi]
  · simp [hij]

theorem isSome_slot? (m : Memory) (i : Nat) : (m.slot? i).isSome = decide (i < m.capacity) := by
  by_cases hi : i < m.slots.size <;> simp [slot?, capacity, hi]

theorem put?_of_lt {m : Memory} {i : Nat} (h : i < m.capacity) (v : Value) :
    m.put? i v = some (m.put i v) :=
  if_pos h

theorem swap?_of_lt {m : Memory} {i j : Nat} (hi : i < m.capacity) (hj : j < m.capacity) :
    m.swap? i j = some (m.swap i j) :=
  if_pos ⟨hi, hj⟩

theorem swap?_of_le {m : Memory} {i j : Nat} (h : m.capacity ≤ i) : m.swap? i j = none :=
  if_neg fun hlt => Nat.not_lt.2 h hlt.1

/-- The live slots are exactly the slots below the height. -/
theorem getElem?_stack? {m : Memory} {height : Nat} {stack : List Value}
    (h : m.stack? height = some stack) (i : Nat) :
    stack[i]? = if i < height then m.slot? i else none := by
  unfold stack? at h
  split at h
  · obtain rfl := Option.some.inj h
    rename_i hle
    have hmin : min height m.slots.size = height := Nat.min_eq_left hle
    rw [Array.getElem?_toList, Array.getElem?_extract, Nat.sub_zero, Nat.zero_add, hmin]
    rfl
  · cases h

end Memory

end StackMachine
