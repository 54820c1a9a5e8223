-- SUMMARY: A larger stack makes no difference to steps that do without it.
import StackMachine.Proofs.PairedRuns

/-!
# Stack sizes

The number of slots shows in two faults only: a push that finds no slot left, and a
stack pointer that is to leave the stack. Until one of them occurs, a machine on a
larger stack does what one on a smaller stack does. The slots of the larger stack are
those of the smaller one with more above them, whether they are live or not, since
the stack pointer may be moved up over slots that were left behind.
-/

namespace StackMachine

/-! ## Memories with more slots -/

namespace Memory

/-- The program is the same, and the slots of `M` are the lowest slots of `N`. -/
structure ExtendsTo (M N : Memory) : Prop where
  code : N.code = M.code
  capacity_le : M.capacity ≤ N.capacity
  slot : ∀ i < M.capacity, N.slot? i = M.slot? i

variable {M N : Memory} {i j : Nat}

theorem slot?_swap (hi : i < M.capacity) (hj : j < M.capacity) (k : Nat) :
    (M.swap i j).slot? k =
      if j = k then M.slot? i else if i = k then M.slot? j else M.slot? k := by
  unfold slot? swap
  unfold capacity at hi hj
  rw [Array.swapIfInBounds_def, dif_pos hi, dif_pos hj, Array.getElem?_swap,
    Array.getElem?_eq_getElem hi, Array.getElem?_eq_getElem hj]

namespace ExtendsTo

variable (h : M.ExtendsTo N)
include h

theorem put (hi : i < M.capacity) (v : Value) : (M.put i v).ExtendsTo (N.put i v) where
  code := h.code
  capacity_le := by simpa using h.capacity_le
  slot k hk := by
    rw [capacity_put] at hk
    have hi' := Nat.lt_of_lt_of_le hi h.capacity_le
    simp only [slot?_put, hi, hi', and_true, h.slot k hk]

theorem swap (hi : i < M.capacity) (hj : j < M.capacity) :
    (M.swap i j).ExtendsTo (N.swap i j) where
  code := h.code
  capacity_le := by simpa using h.capacity_le
  slot k hk := by
    rw [capacity_swap] at hk
    have hi' := Nat.lt_of_lt_of_le hi h.capacity_le
    have hj' := Nat.lt_of_lt_of_le hj h.capacity_le
    rw [slot?_swap hi hj, slot?_swap hi' hj', h.slot i hi, h.slot j hj, h.slot k hk]

theorem inCode_eq (address : Int64) : N.inCode address = M.inCode address := by
  rw [inCode, h.code, inCode]

end ExtendsTo

theorem extendsTo_ofProgram (program : Bytes) {capacity capacity' : Nat}
    (hle : capacity ≤ capacity') :
    (ofProgram program capacity).ExtendsTo (ofProgram program capacity') where
  code := rfl
  capacity_le := by simpa using hle
  slot i hi := by
    rw [capacity_ofProgram] at hi
    simp [ofProgram, slot?, hi, Nat.lt_of_lt_of_le hi hle]

end Memory

/-! ## Machines with more slots -/

/-- The second machine has a larger stack. -/
def Likeness.ofCapacity : Likeness where
  memory := Memory.ExtendsTo
  tracing := Eq
  output := Eq

theorem Action.compatible_ofCapacity :
    Compatible Likeness.ofCapacity fun f _ _ => f.OfCapacity where
  slot h hv := (h.slot _ (Memory.lt_capacity_of_slot? hv)).trans hv
  put v h hi := h.put hi v
  swap h hi hj := h.swap hi hj
  capacity _ := .inr fun _ hf _ _ => hf
  inCode h hin := (h.inCode_eq _).trans hin
  code target h := .inl (h.inCode_eq target)
  tracing := congrArg (!·)
  print := respects_printLine

namespace Machine

/-- As long as the steps of a fresh machine record neither that the stack is full nor
    that the stack pointer would leave it, a machine that differs in its larger stack
    returns the same from each step, statuses as well as malformations, and ends up
    with the same registers, live stack, flag, fault, exit code and output. -/
theorem steps_with_larger_stack (program : Bytes) (config : Config) (capacity n : Nat)
    (hsize : program.length < 2 ^ 63) (hle : config.stackSize ≤ capacity)
    (hcap : capacity < 2 ^ 63) :
    let small := ofProgram program config
    let large := ofProgram program { config with stackSize := capacity }
    (∀ k ≤ n, (small.afterSteps k).fault ≠ some .stackOverflow ∧
      ∀ sp, (small.afterSteps k).fault ≠ some (.stackPointerOutOfRange sp)) →
    large.replies n = small.replies n ∧
    (large.afterSteps n).registers = (small.afterSteps n).registers ∧
    (large.afterSteps n).stack? = (small.afterSteps n).stack? ∧
    (large.afterSteps n).flag = (small.afterSteps n).flag ∧
    (large.afterSteps n).fault = (small.afterSteps n).fault ∧
    (large.afterSteps n).exitCode = (small.afterSteps n).exitCode ∧
    (large.afterSteps n).output = (small.afterSteps n).output := by
  intro small large hfits
  have hstack : config.stackSize < 2 ^ 63 := Nat.lt_of_le_of_lt hle hcap
  have hmn : Likeness.ofCapacity.Relates small large :=
    Likeness.relates_ofProgram (Memory.extendsTo_ofProgram program hle) rfl rfl
  have hsmall : small.Bounded program config.stackSize := (ready_ofProgram program config).bounded
  have hlarge : large.Bounded program capacity :=
    (ready_ofProgram program { config with stackSize := capacity }).bounded
  obtain ⟨hreplies, halike⟩ | ⟨k, hk, -, f, m, journal, hf, heq⟩ :=
    relates_or_setApart hsize hstack hsize hcap Action.compatible_ofCapacity
      hmn hsmall hlarge n fun k _ h => h.decode_eq h.memory.code
  · have hlast := halike n (Nat.le_refl n)
    obtain ⟨stack, hlive⟩ := (hsmall.afterSteps hsize hstack n).exists_stack
    have hlive' := Action.compatible_ofCapacity.stack?_of_relates hlast hlive
    exact ⟨hreplies, hlast.registers, hlive'.trans hlive.symm, hlast.flag, hlast.fault,
      hlast.exitCode, hlast.output.symm⟩
  -- The fault that would set them apart is one of those that did not occur.
  · obtain ⟨hoverflow, hpointer⟩ := hfits (k + 1) hk
    have hfault : (small.afterSteps (k + 1)).fault = some f := by rw [heq]
    cases f with
    | stackOverflow => exact absurd hfault hoverflow
    | stackPointerOutOfRange sp => exact absurd hfault (hpointer sp)
    | _ => exact hf.elim

/-- A program that raises the stack pointer over a slot that it never pushed, dumps the
    stack, pushes and ends without a halt. It does the same on five slots as on two, all
    of which it fills. -/
theorem steps_with_larger_stack_of_raised :
    let program := [Opcode.setInt.byte, Register.sp.byte, 2, 0, 0, 0, 0, 0, 0, 0,
      Opcode.dump.byte, Opcode.pushRegister.byte, Register.sp.byte]
    let small := ofProgram program { stackSize := 2 }
    let large := ofProgram program { stackSize := 5 }
    large.replies 4 = small.replies 4 ∧
    small.replies 4 = [.ok .running, .ok .running, .ok .running,
      .error (.malformed (.unexpectedEnd 13))] ∧
    (large.afterSteps 4).stack? = (small.afterSteps 4).stack? ∧
    (small.afterSteps 4).stack? = some [.int 0, .int 1] := by
  intro program small large
  have hfaults : ∀ k ≤ 4, (small.afterSteps k).fault = none := by decide
  obtain ⟨hreplies, -, hstack, -⟩ :=
    steps_with_larger_stack program { stackSize := 2 } 5 4 (by decide) (by decide) (by decide)
      fun k hk => by simp [small, hfaults k hk]
  exact ⟨hreplies, by decide, hstack, by decide⟩

end Machine

end StackMachine
