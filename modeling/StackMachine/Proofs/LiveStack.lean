-- SUMMARY: The live slots as a list, and what the stack actions do to that list.
import StackMachine.Proofs.Bounds
import StackMachine.Proofs.ControlFlow

/-!
# The live stack

The lowest slots of the memory, as many as the stack pointer says, are the live
stack. A ready machine has all of them, so each stack action can be described by
the list of their values alone: a push appends to it, a pop drops its last value,
and what the slots above the stack pointer hold plays no part.
-/

namespace StackMachine

/-! ## Slots -/

namespace Memory

variable {m : Memory} {height : Nat}

/-- The lowest `height` slots, bottom first. -/
def live (m : Memory) (height : Nat) : List Value :=
  m.slots.toList.take height

theorem stack?_eq_live (h : height ≤ m.capacity) : m.stack? height = some (m.live height) := by
  simp [stack?, h, live]

theorem length_live (h : height ≤ m.capacity) : (m.live height).length = height := by
  simpa [live, capacity] using h

theorem getElem?_live {i : Nat} (h : i < height) : (m.live height)[i]? = m.slot? i := by
  simp [live, slot?, h]

theorem live_put_of_le {i : Nat} (h : height ≤ i) (v : Value) :
    (m.put i v).live height = m.live height := by
  simp [live, put, List.take_set_of_le h]

theorem live_succ {v : Value} (h : m.slot? height = some v) :
    m.live (height + 1) = m.live height ++ [v] := by
  have hv : m.slots.toList[height]? = some v := by simpa [slot?] using h
  simp [live, List.take_add_one, hv]

theorem live_put_top (h : height < m.capacity) (v : Value) :
    (m.put height v).live (height + 1) = m.live height ++ [v] := by
  have hv : (m.put height v).slot? height = some v := by simp [slot?_put, h]
  rw [live_succ hv, live_put_of_le (Nat.le_refl height)]

theorem dropLast_live (h : height + 1 ≤ m.capacity) :
    (m.live (height + 1)).dropLast = m.live height := by
  rw [List.dropLast_eq_take, length_live h, live, List.take_take]
  simp [live]

theorem live_swap_top {below : List Value} {x y : Value} (hroom : height + 2 ≤ m.capacity)
    (h : m.live (height + 2) = below ++ [x, y]) :
    (m.swap (height + 1) height).live (height + 2) = below ++ [y, x] := by
  have hbelow : below.length = height := by
    have hlength := length_live hroom
    simpa [h] using hlength
  have hslots : m.slots.toList = below ++ x :: y :: m.slots.toList.drop (height + 2) := by
    have hsplit := List.take_append_drop (height + 2) m.slots.toList
    change m.live (height + 2) ++ _ = _ at hsplit
    rw [h] at hsplit
    simpa using hsplit.symm
  have hx : m.slots[height]? = some x := by
    rw [← Array.getElem?_toList, hslots, ← hbelow]
    simp
  have hy : m.slots[height + 1]? = some y := by
    rw [← Array.getElem?_toList, hslots, ← hbelow]
    simp
  obtain ⟨hlow, hx⟩ := Array.getElem?_eq_some_iff.1 hx
  obtain ⟨hhigh, hy⟩ := Array.getElem?_eq_some_iff.1 hy
  have hswap : (m.swap (height + 1) height).slots.toList =
      below ++ y :: x :: m.slots.toList.drop (height + 2) := by
    simp only [swap, Array.swapIfInBounds_def, hlow, hhigh, dif_pos, Array.toList_swap, hx, hy]
    rw [hslots, ← hbelow]
    simp
  rw [live, hswap, ← hbelow, List.take_length_add_append]
  rfl

theorem slot?_swap_of_ne {i j k : Nat} (hi : k ≠ i) (hj : k ≠ j) :
    (m.swap i j).slot? k = m.slot? k := by
  unfold slot? swap
  rw [Array.swapIfInBounds_def]
  split
  · split
    · rw [Array.getElem?_swap, if_neg hj.symm, if_neg hi.symm]
    · rfl
  · rfl

end Memory

/-! ## Machines -/

namespace Machine

variable {program : Bytes} {capacity : Nat} {m : Machine}

/-- The live stack, bottom first. -/
def live (m : Machine) : List Value :=
  m.memory.live m.height

/-- The machine without the top of its stack. -/
def popped (m : Machine) : Machine :=
  { m with
    memory := m.memory.put (m.height - 1) .zero
    registers := { m.registers with sp := m.registers.sp - 1 } }

/-- The machine with one more value on its stack. -/
def pushed (m : Machine) (v : Value) : Machine :=
  { m with
    memory := m.memory.put m.height v
    registers := { m.registers with sp := m.registers.sp + 1 }
    journal := m.journal.add (.stored m.height v) }

/-- The machine with the two topmost values exchanged. -/
def swapped (m : Machine) : Machine :=
  { m with memory := m.memory.swap (m.height - 1) (m.height - 2) }

namespace InBounds

variable (h : m.InBounds program capacity)
include h

theorem stack?_eq_live : m.stack? = some m.live :=
  Memory.stack?_eq_live h.height_le

theorem length_live : m.live.length = m.height :=
  Memory.length_live h.height_le

theorem toInt_sp : m.registers.sp.toInt = m.live.length := by
  rw [h.length_live, cast_height h.zero_le_sp]

theorem length_live_le : m.live.length ≤ capacity := by
  rw [h.length_live, ← h.capacity_eq]
  exact h.height_le

/-- The top of the stack is the last of the live values. -/
theorem top?_eq : m.top? = m.live.getLast? := by
  rw [List.getLast?_eq_getElem?, h.length_live, top?]
  split
  · rename_i hzero
    simp [hzero, live, Memory.live]
  · exact (Memory.getElem?_live (by omega)).symm

/-- The argument that lies `offset` below the frame is a live value. -/
theorem argument?_eq (offset : Int64) :
    m.argument? offset =
      if (m.registers.fp - offset).toInt < 0 then none
      else m.live[(m.registers.fp - offset).toInt.toNat]? := by
  have hlength := h.length_live
  unfold argument?
  dsimp only
  generalize (m.registers.fp - offset).toInt = index
  by_cases hneg : index < 0
  · simp [hneg]
  by_cases habove : (m.height : Int) ≤ index
  · have hend : m.live.length ≤ index.toNat := by omega
    simp [hneg, habove, hend]
  · simp only [hneg, habove, or_self, if_false]
    have hi : index.toNat < m.height := by omega
    exact (Memory.getElem?_live hi).symm

end InBounds

theorem height_of_toInt_sp {n : Nat} (h : m.registers.sp.toInt = n) : m.height = n := by
  have hcast := cast_height (m := m) (by omega)
  omega

namespace Ready

variable (h : m.Ready program capacity)
include h

/-! ## Ready machines -/

theorem popped (hne : m.live ≠ []) :
    m.popped.Ready program capacity ∧ m.popped.live = m.live.dropLast := by
  obtain ⟨height, hheight⟩ : ∃ n, m.height = n + 1 := by
    have hpos := List.length_pos_iff.2 hne
    rw [h.length_live] at hpos
    exact ⟨m.height - 1, by omega⟩
  have hroom : height + 1 ≤ m.memory.capacity := by
    rw [← hheight]
    exact h.height_le
  have hsp : m.popped.registers.sp.toInt = height := by
    have hlive := cast_height h.zero_le_sp
    have hpos : 0 < m.registers.sp.toInt := by omega
    change (m.registers.sp - 1).toInt = height
    rw [Word.toInt_sub_one hpos]
    omega
  constructor
  · obtain ⟨v, hv⟩ := h.exists_slot (i := m.height - 1) (by omega)
    have hready := (Action.wp_pop .pop).1 (Action.keepsReady_pop .pop m h)
    have hpop := hready.2 (by omega)
    rw [hv] at hpop
    exact hpop
  · have hput : m.popped.memory = m.memory.put height .zero := by simp [Machine.popped, hheight]
    rw [live, height_of_toInt_sp hsp, hput, Memory.live_put_of_le (Nat.le_refl height), live,
      hheight, Memory.dropLast_live hroom]

theorem pushed (hcap : capacity < 2 ^ 63) (hroom : m.live.length < capacity) (v : Value) :
    (m.pushed v).Ready program capacity ∧ (m.pushed v).live = m.live ++ [v] := by
  rw [h.length_live] at hroom
  have hheight : m.height < m.memory.capacity := by
    rw [h.capacity_eq]
    exact hroom
  have hsp : (m.pushed v).registers.sp.toInt = (m.height + 1 : Nat) := by
    have hlive := cast_height h.zero_le_sp
    have hlt : m.registers.sp.toInt < capacity := by omega
    change (m.registers.sp + 1).toInt = _
    rw [Word.toInt_add_one hlt hcap]
    omega
  constructor
  · have hready := (Action.wp_push v).1 (Action.keepsReady_push hcap v m h)
    exact hready.1 hheight
  · rw [live, height_of_toInt_sp hsp]
    exact Memory.live_put_top hheight v

theorem swapped {below : List Value} {x y : Value} (hlive : m.live = below ++ [x, y]) :
    m.swapped.Ready program capacity ∧ m.swapped.live = below ++ [y, x] := by
  have hlength := h.length_live
  obtain ⟨height, hheight⟩ : ∃ n, m.height = n + 2 := ⟨below.length, by
    rw [← hlength, hlive]
    simp⟩
  have hroom : height + 2 ≤ m.memory.capacity := by
    rw [← hheight]
    exact h.height_le
  constructor
  · have hready := Action.wp_swapTop.1 (Action.keepsReady_swapTop m h)
    exact hready.2.1 (by omega) h.height_le
  · have hswap : m.swapped.memory = m.memory.swap (height + 1) height := by
      simp [Machine.swapped, hheight]
    rw [live, hheight] at hlive
    change m.swapped.memory.live m.height = _
    rw [hswap, hheight, Memory.live_swap_top hroom hlive]

end Ready

end Machine

/-! ## Stack actions -/

namespace Action

variable {program : Bytes} {capacity : Nat} {m : Machine} {T : Trap → Machine → Prop}
  {Q : Value → Machine → Prop} {R : Unit → Machine → Prop}

theorem wp_top_live (h : m.Ready program capacity) (op : Opcode) :
    wp (top op) Q T m ↔
      match m.live.getLast? with
      | none => T (.fault (.stackUnderflow op)) m
      | some v => Q v m := by
  rw [wp_top, ← h.top?_eq, Machine.top?]
  by_cases hheight : m.height = 0
  · simp [hheight]
  · obtain ⟨v, hv⟩ := h.exists_slot (i := m.height - 1) (by omega)
    simp [hheight, hv]

theorem wp_pop_live (h : m.Ready program capacity) (op : Opcode) :
    wp (pop op) Q T m ↔
      match m.live.getLast? with
      | none => T (.fault (.stackUnderflow op)) m
      | some v => Q v m.popped := by
  rw [wp_pop, ← h.top?_eq, Machine.top?]
  by_cases hheight : m.height = 0
  · simp [hheight]
  · obtain ⟨v, hv⟩ := h.exists_slot (i := m.height - 1) (by omega)
    simp [hheight, hv, Machine.popped]

theorem wp_push_live (h : m.Ready program capacity) (v : Value) :
    wp (push v) R T m ↔
      if m.live.length < capacity then R () (m.pushed v) else T (.fault .stackOverflow) m := by
  rw [wp_push, h.length_live, h.capacity_eq]
  by_cases hroom : m.height < capacity <;> simp [hroom, Machine.pushed]

theorem wp_swapTop_live (h : m.Ready program capacity) :
    wp swapTop R T m ↔
      if m.live.length < 2 then T (.fault (.stackUnderflow .swap)) m else R () m.swapped := by
  rw [wp_swapTop, h.length_live]
  by_cases hlow : m.height < 2 <;> simp [hlow, h.height_le, Machine.swapped]

theorem wp_param_live (h : m.Ready program capacity) (r : Register) (offset : Int64) :
    wp (param r offset) R T m ↔
      match m.argument? offset with
      | none => T (.fault (.paramOutOfRange (m.registers.fp - offset))) m
      | some v => wp (setRegister r v) R T m := by
  unfold param Machine.argument?
  rw [wp_bind, wp_get]
  dsimp only
  generalize m.registers.fp - offset = index
  by_cases hout : index.toInt < 0 ∨ (m.height : Int) ≤ index.toInt
  · simp [hout]
  · obtain ⟨v, hv⟩ := h.exists_slot (i := index.toInt.toNat) (by omega)
    simp only [hout, if_false, hv]

theorem wp_dump_live (h : m.Ready program capacity) :
    wp dump R T m ↔ wp (printLine (Value.renderStack m.live)) R T m := by
  unfold dump
  rw [wp_bind, wp_get, h.stack?_eq_live]

end Action

end StackMachine
