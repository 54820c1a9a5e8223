-- SUMMARY: The bounds on program counter and stack pointer, which every action keeps.
import StackMachine.Proofs.Invariants
import StackMachine.Proofs.Word

/-!
# Bounds

Between any two actions the program counter lies in the program or just behind
it, and the stack pointer is a height that the stack can have. Both hold because
each action that moves one of them checks where to. The slots that an action
reaches for are therefore there, so no action ends outside the stack.
-/

namespace StackMachine

namespace Machine

/-- A machine on a program, with a stack of that capacity, whose registers point
    to places that exist. -/
structure InBounds (program : Bytes) (capacity : Nat) (m : Machine) : Prop where
  code : m.memory.code = program.toArray
  capacity_eq : m.memory.capacity = capacity
  zero_le_pc : 0 ≤ m.registers.pc.toInt
  pc_le : m.registers.pc.toInt ≤ program.length
  zero_le_sp : 0 ≤ m.registers.sp.toInt
  sp_le : m.registers.sp.toInt ≤ capacity

/-- A machine within its bounds that has neither faulted nor halted. -/
structure Ready (program : Bytes) (capacity : Nat) (m : Machine) : Prop
    extends InBounds program capacity m where
  fault : m.fault = none
  exitCode : m.exitCode = none

variable {program : Bytes} {capacity : Nat} {m : Machine}

namespace InBounds

theorem code_size (h : m.InBounds program capacity) : m.memory.code.size = program.length := by
  rw [h.code, List.size_toArray]

theorem toInt_pc (h : m.InBounds program capacity) :
    m.registers.pc.toInt = (m.registers.pc.toInt.toNat : Nat) :=
  (Int.toNat_of_nonneg h.zero_le_pc).symm

theorem inCode_iff (h : m.InBounds program capacity) (target : Int64) :
    m.memory.inCode target = true ↔ 0 ≤ target.toInt ∧ target.toInt < program.length := by
  simp [Memory.inCode, h.code_size]

theorem height_le (h : m.InBounds program capacity) : m.height ≤ m.memory.capacity := by
  have hsp := cast_height h.zero_le_sp
  have hle := h.sp_le
  have hcap := h.capacity_eq
  omega

/-- Every live slot is there. -/
theorem exists_slot (h : m.InBounds program capacity) {i : Nat} (hi : i < m.height) :
    ∃ v, m.memory.slot? i = some v := by
  have hsome := Memory.isSome_slot? m.memory i
  have hlt : i < m.memory.capacity := Nat.lt_of_lt_of_le hi h.height_le
  exact Option.isSome_iff_exists.1 (by simpa [hlt] using hsome)

theorem exists_stack (h : m.InBounds program capacity) : ∃ stack, m.stack? = some stack := by
  unfold stack? Memory.stack?
  rw [if_pos h.height_le]
  exact ⟨_, rfl⟩

theorem exists_snapshot (h : m.InBounds program capacity) : ∃ s, m.snapshot? = some s := by
  obtain ⟨stack, hstack⟩ := h.exists_stack
  unfold snapshot?
  rw [hstack]
  exact ⟨_, rfl⟩

end InBounds

/-- The bounds look at the program, the capacity, the program counter and the
    stack pointer only. -/
theorem InBounds.of_eq {m' : Machine} (h : m.InBounds program capacity)
    (hmemory : m'.memory = m.memory) (hpc : m'.registers.pc = m.registers.pc)
    (hsp : m'.registers.sp = m.registers.sp) : m'.InBounds program capacity := by
  constructor
  · rw [hmemory]; exact h.code
  · rw [hmemory]; exact h.capacity_eq
  · rw [hpc]; exact h.zero_le_pc
  · rw [hpc]; exact h.pc_le
  · rw [hsp]; exact h.zero_le_sp
  · rw [hsp]; exact h.sp_le

/-- A machine before its first instruction. -/
theorem ready_ofProgram (program : Bytes) (config : Config) :
    (ofProgram program config).Ready program config.stackSize where
  code := rfl
  capacity_eq := Memory.capacity_ofProgram ..
  zero_le_pc := by simp [ofProgram, RegisterFile.fresh]
  pc_le := by simp [ofProgram, RegisterFile.fresh]
  zero_le_sp := by simp [ofProgram, RegisterFile.fresh]
  sp_le := by simp [ofProgram, RegisterFile.fresh]
  fault := rfl
  exitCode := rfl

/-- Moves of the stack pointer within the stack keep the machine ready. -/
theorem Ready.move_sp {m' : Machine} (h : m.Ready program capacity)
    (hcode : m'.memory.code = m.memory.code) (hcap : m'.memory.capacity = m.memory.capacity)
    (hpc : m'.registers.pc = m.registers.pc) (hlow : 0 ≤ m'.registers.sp.toInt)
    (hhigh : m'.registers.sp.toInt ≤ capacity) (hfault : m'.fault = m.fault)
    (hexit : m'.exitCode = m.exitCode) : m'.Ready program capacity where
  code := hcode.trans h.code
  capacity_eq := hcap.trans h.capacity_eq
  zero_le_pc := by rw [hpc]; exact h.zero_le_pc
  pc_le := by rw [hpc]; exact h.pc_le
  zero_le_sp := hlow
  sp_le := hhigh
  fault := hfault.trans h.fault
  exitCode := hexit.trans h.exitCode

end Machine

/-! ## Elementary actions -/

namespace Action

variable {program : Bytes} {capacity : Nat}

/-- The action keeps a machine ready, and faults are the only traps it ends in:
    it never reaches outside the stack. -/
abbrev KeepsReady (program : Bytes) (capacity : Nat) (x : Action α) : Prop :=
  Keeps (fun m => m.Ready program capacity) (fun t => ∃ f, t = .fault f) x

theorem keepsReady_pop (op : Opcode) : KeepsReady program capacity (pop op) := by
  intro m hm
  rw [wp_pop]
  refine ⟨fun _ => ⟨⟨_, rfl⟩, hm⟩, fun hne => ?_⟩
  obtain ⟨v, hv⟩ := hm.exists_slot (i := m.height - 1) (by omega)
  rw [hv]
  -- The height is not zero, so counting down does not wrap around.
  have hheight := Machine.cast_height hm.zero_le_sp
  have hsp : (m.registers.sp - 1).toInt = m.registers.sp.toInt - 1 :=
    Word.toInt_sub_one (by omega)
  have hle := hm.sp_le
  exact hm.move_sp rfl (Memory.capacity_put ..) rfl (by simp only [hsp]; omega)
    (by simp only [hsp]; omega) rfl rfl

theorem keepsReady_push (hcap : capacity < 2 ^ 63) (v : Value) :
    KeepsReady program capacity (push v) := by
  intro m hm
  rw [wp_push]
  refine ⟨fun hroom => ?_, fun _ => ⟨⟨_, rfl⟩, hm⟩⟩
  rw [hm.capacity_eq] at hroom
  -- The height is below the capacity, so counting up does not either.
  have hheight := Machine.cast_height hm.zero_le_sp
  have hlow := hm.zero_le_sp
  have hsp : (m.registers.sp + 1).toInt = m.registers.sp.toInt + 1 :=
    Word.toInt_add_one (by omega) hcap
  exact hm.move_sp rfl (Memory.capacity_put ..) rfl (by simp only [hsp]; omega)
    (by simp only [hsp]; omega) rfl rfl

theorem keepsReady_swapTop : KeepsReady program capacity swapTop := by
  intro m hm
  rw [wp_swapTop]
  refine ⟨fun _ => ⟨⟨_, rfl⟩, hm⟩, fun _ _ => ?_, fun _ habove => absurd hm.height_le habove⟩
  exact hm.move_sp rfl (Memory.capacity_swap ..) rfl hm.zero_le_sp hm.sp_le rfl rfl

/-- A jump goes to a byte of the program. -/
theorem keepsReady_jump (target : Int64) : KeepsReady program capacity (jump target) := by
  intro m hm
  rw [wp_jump]
  refine ⟨fun hin => ?_, fun _ => ⟨⟨_, rfl⟩, hm⟩⟩
  obtain ⟨hlow, hhigh⟩ := (hm.inCode_iff target).1 hin
  exact { hm with zero_le_pc := hlow, pc_le := Int.le_of_lt hhigh }

theorem keepsReady_setRegister (r : Register) (v : Value) :
    KeepsReady program capacity (setRegister r v) := by
  -- Only two registers are bounded, and writing them checks the bounds.
  by_cases hpc : r = .pc
  · subst hpc
    cases v with
    | int target => exact keepsReady_jump target
    | bytes b => exact fun m hm => ⟨⟨_, rfl⟩, hm⟩
  by_cases hsp : r = .sp
  · subst hsp
    cases v with
    | int sp =>
      intro m hm
      rw [wp_setRegister_sp_int]
      refine ⟨fun _ => ⟨⟨_, rfl⟩, hm⟩, fun hin => ?_⟩
      simp only [isOffStack, hm.capacity_eq, Bool.or_eq_true, decide_eq_true_eq, not_or,
        Int.not_lt] at hin
      exact { hm with zero_le_sp := hin.1, sp_le := hin.2 }
    | bytes b => exact fun m hm => ⟨⟨_, rfl⟩, hm⟩
  intro m hm
  rw [wp_setRegister_of_ne hpc hsp]
  cases hset : m.registers.set? r v with
  | none => exact ⟨⟨_, rfl⟩, hm⟩
  | some registers =>
    have hpc' : registers.pc = m.registers.pc :=
      Value.int.inj (RegisterFile.get_set?_of_ne hset hpc)
    have hsp' : registers.sp = m.registers.sp :=
      Value.int.inj (RegisterFile.get_set?_of_ne hset hsp)
    exact ⟨hm.toInBounds.of_eq rfl hpc' hsp', hm.fault, hm.exitCode⟩

theorem keepsReady_printLine (line : Text) : KeepsReady program capacity (printLine line) := by
  intro m hm
  rw [wp_printLine]
  exact ⟨fun _ => { hm with }, fun _ => ⟨⟨_, rfl⟩, { hm with }⟩⟩

theorem keepsReady_call (target : Int64) : KeepsReady program capacity (call target) := by
  intro m hm
  unfold call
  rw [wp_bind, wp_checkTarget]
  refine ⟨fun hin => ?_, fun _ => ⟨⟨_, rfl⟩, hm⟩⟩
  obtain ⟨hlow, hhigh⟩ := (hm.inCode_iff target).1 hin
  exact { hm with zero_le_pc := hlow, pc_le := Int.le_of_lt hhigh }

/-! ## Instructions -/

theorem keepsReady_execute (hcap : capacity < 2 ^ 63) (i : Instruction) :
    KeepsReady program capacity (execute i) := by
  refine Closed.execute ?_
  exact {
    fault := fun f => ⟨f, rfl⟩
    live := fun m hm => .inl hm.height_le
    pop := keepsReady_pop
    push := keepsReady_push hcap
    swap := keepsReady_swapTop
    write := fun r _ v => keepsReady_setRegister r v
    jump := fun _ target => keepsReady_jump target
    call := fun target _ => keepsReady_call target
    print := fun _ => keepsReady_printLine
    flag := fun m flag hm => { hm with }
    trace := Keeps.modify fun m hm => { hm with } }

end Action
end StackMachine
