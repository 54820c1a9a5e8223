-- SUMMARY: What a fault leaves behind: operands that were popped are gone, and nothing else has changed.
import StackMachine.Proofs.Decoding
import StackMachine.Proofs.LiveStack
import StackMachine.Proofs.Reachability

/-!
# Faults

An instruction checks before it takes effect, but for the operands that it pops.
So a fault finds the machine as it was before the instruction, without those
operands, and with the program counter behind the instruction. Only a print that
did not fit has written something.
-/

namespace StackMachine

/-- The number of operands that the instruction pops before its last check. -/
def Instruction.consumed : Instruction → Nat
  | arithmetic _ | concat => 2
  | popRegister _ => 1
  | _ => 0

namespace Machine

variable {program : Bytes} {capacity : Nat} {m m' : Machine} {k : Nat}

/-- `m'` is `m` without the `k` topmost values of its stack, or without all of
    them if there are fewer. The output may be another. -/
structure Lost (k : Nat) (m m' : Machine) : Prop where
  live : m'.live = m.live.take (m.live.length - k)
  frame : m' = { m with
    memory := m'.memory
    registers := { m.registers with sp := m'.registers.sp }
    output := m'.output }

theorem Lost.nothing (m : Machine) (output : Sink) : Lost 0 m { m with output } where
  live := (List.take_length (l := m.live)).symm
  frame := rfl

theorem Lost.of_empty (hempty : m.live = []) : Lost k m m where
  live := by simp [hempty]
  frame := rfl

theorem Lost.of_popped (h : m.Ready program capacity) (hne : m.live ≠ [])
    (hlost : Lost k m.popped m') : Lost (k + 1) m m' where
  live := by
    obtain ⟨-, hlive⟩ := h.popped hne
    rw [hlost.live, hlive, List.dropLast_eq_take, List.take_take, List.length_take]
    congr 1
    omega
  frame := hlost.frame

end Machine

/-! ## Actions -/

namespace Action

variable {program : Bytes} {capacity : Nat} {m : Machine} {k : Nat}

/-- If the action ends in a trap, that is a fault, the `k` topmost values of the
    stack are lost, and only a failed print has written something. -/
def FaultLoses (k : Nat) (x : Action α) (m : Machine) : Prop :=
  wp x (fun _ _ => True)
    (fun t m' => ∃ f, t = .fault f ∧ f ≠ .terminated ∧ Machine.Lost k m m' ∧
      (f ≠ .output → m'.output = m.output)) m

theorem faultLoses_pure (a : α) : FaultLoses k (pure a) m := trivial

theorem faultLoses_fail {f : Fault} (hf : f ≠ .terminated) :
    FaultLoses 0 (fail f : Action α) m :=
  ⟨f, rfl, hf, .nothing m m.output, fun _ => rfl⟩

theorem FaultLoses.andThen {x : Action Unit} (hx : FaultLoses k x m) (result : β) :
    FaultLoses k (do x; return result) m := by
  unfold FaultLoses
  rw [wp_bind]
  exact hx

theorem faultLoses_get_bind {f : Machine → Action β} (hf : FaultLoses k (f m) m) :
    FaultLoses k (get >>= f) m :=
  hf

/-! ### The stack -/

theorem faultLoses_top_bind (h : m.Ready program capacity) {f : Value → Action β} (op : Opcode)
    (hf : ∀ v, FaultLoses 0 (f v) m) : FaultLoses 0 (top op >>= f) m := by
  unfold FaultLoses
  rw [wp_bind, wp_top_live h]
  cases m.live.getLast? with
  | none => exact faultLoses_fail (α := β) nofun
  | some v => exact hf v

/-- What follows a pop loses one value less than the pop and it lose together. -/
theorem faultLoses_pop_bind (h : m.Ready program capacity) {f : Value → Action β} (op : Opcode)
    (hf : ∀ v, m.popped.Ready program capacity → FaultLoses k (f v) m.popped) :
    FaultLoses (k + 1) (pop op >>= f) m := by
  unfold FaultLoses
  rw [wp_bind, wp_pop_live h]
  cases hlast : m.live.getLast? with
  | none =>
    have hempty := List.getLast?_eq_none_iff.1 hlast
    exact ⟨_, rfl, nofun, .of_empty hempty, fun _ => rfl⟩
  | some v =>
    have hne : m.live ≠ [] := fun hempty => by simp [hempty] at hlast
    refine (hf v (h.popped hne).1).mono (fun _ _ _ => trivial) ?_
    rintro t m' ⟨f, rfl, hf, hlost, houtput⟩
    exact ⟨f, rfl, hf, hlost.of_popped h hne, houtput⟩

theorem faultLoses_pop (h : m.Ready program capacity) (op : Opcode) :
    FaultLoses 0 (discard (pop op)) m := by
  unfold FaultLoses
  rw [wp_discard, wp_pop_live h]
  cases m.live.getLast? with
  | none => exact faultLoses_fail (α := Unit) nofun
  | some v => exact trivial

theorem faultLoses_push (v : Value) : FaultLoses 0 (push v) m := by
  unfold FaultLoses
  rw [wp_push]
  exact ⟨fun _ => trivial, fun _ => faultLoses_fail (α := Unit) nofun⟩

theorem faultLoses_swapTop (h : m.Ready program capacity) : FaultLoses 0 swapTop m := by
  unfold FaultLoses
  rw [wp_swapTop_live h]
  split
  · exact faultLoses_fail (α := Unit) nofun
  · exact trivial

/-! ### Registers and output -/

theorem faultLoses_jump (target : Int64) : FaultLoses 0 (jump target) m := by
  unfold FaultLoses
  rw [wp_jump]
  exact ⟨fun _ => trivial, fun _ => faultLoses_fail (α := Unit) nofun⟩

theorem faultLoses_setRegister (r : Register) (v : Value) : FaultLoses 0 (setRegister r v) m := by
  by_cases hpc : r = .pc
  · subst hpc
    cases v with
    | int target => exact faultLoses_jump target
    | bytes b => exact faultLoses_fail (α := Unit) nofun
  by_cases hsp : r = .sp
  · subst hsp
    cases v with
    | int sp =>
      unfold FaultLoses
      rw [wp_setRegister_sp_int]
      exact ⟨fun _ => faultLoses_fail (α := Unit) nofun, fun _ => trivial⟩
    | bytes b => exact faultLoses_fail (α := Unit) nofun
  · unfold FaultLoses
    rw [wp_setRegister_of_ne hpc hsp]
    cases m.registers.set? r v with
    | none => exact faultLoses_fail (α := Unit) nofun
    | some registers => exact trivial

theorem faultLoses_printLine (line : Text) : FaultLoses 0 (printLine line) m := by
  unfold FaultLoses
  rw [wp_printLine]
  exact ⟨fun _ => trivial, fun _ => ⟨.output, rfl, nofun, .nothing m _, fun h => absurd rfl h⟩⟩

theorem faultLoses_integer_bind {f : Int64 → Action β} (op : Opcode) (v : Value)
    (hf : ∀ i, FaultLoses 0 (f i) m) : FaultLoses 0 (integer op v >>= f) m := by
  cases v with
  | int i => exact hf i
  | bytes b => exact faultLoses_fail (α := β) nofun

/-! ### Composite actions -/

theorem faultLoses_arithmetic (h : m.Ready program capacity) (op : Arithmetic) :
    FaultLoses 2 (arithmetic op) m := by
  refine faultLoses_pop_bind h _ fun right hright => ?_
  refine faultLoses_pop_bind hright _ fun left hleft => ?_
  cases left with
  | bytes b => exact faultLoses_fail nofun
  | int left =>
    cases right with
    | bytes b => exact faultLoses_fail nofun
    | int right =>
      cases hresult : op.result? left right with
      | none =>
        simp only [hresult]
        exact faultLoses_fail nofun
      | some result =>
        simp only [hresult]
        exact faultLoses_push _

theorem faultLoses_concat (h : m.Ready program capacity) : FaultLoses 2 concat m := by
  refine faultLoses_pop_bind h _ fun right hright => ?_
  refine faultLoses_pop_bind hright _ fun left hleft => ?_
  cases left with
  | int left => exact faultLoses_fail nofun
  | bytes left =>
    cases right with
    | int right => exact faultLoses_fail nofun
    | bytes right => exact faultLoses_push _

theorem faultLoses_jump_if (c : Bool) (target : Int64) :
    FaultLoses 0 (if c then jump target else pure ()) m := by
  cases c with
  | true => exact faultLoses_jump target
  | false => exact faultLoses_pure ()

theorem faultLoses_call (target : Int64) : FaultLoses 0 (call target) m := by
  unfold FaultLoses call
  rw [wp_bind, wp_checkTarget]
  exact ⟨fun _ => trivial, fun _ => faultLoses_fail (α := Unit) nofun⟩

theorem faultLoses_param (h : m.Ready program capacity) (r : Register) (offset : Int64) :
    FaultLoses 0 (param r offset) m := by
  unfold FaultLoses
  rw [wp_param_live h]
  cases m.argument? offset with
  | none => exact faultLoses_fail (α := Unit) nofun
  | some v => exact faultLoses_setRegister r v

theorem faultLoses_dump (h : m.Ready program capacity) : FaultLoses 0 dump m := by
  unfold FaultLoses
  rw [wp_dump_live h]
  exact faultLoses_printLine _

theorem faultLoses_compare (left right : Register) :
    FaultLoses 0 (execute (.compare left right)) m := by
  unfold FaultLoses execute
  simp only [wp_bind, register, wp_get, wp_pure]
  cases m.registers.get left with
  | bytes b => exact faultLoses_fail nofun
  | int left =>
    cases m.registers.get right with
    | bytes b => exact faultLoses_fail nofun
    | int right => exact trivial

/-- A jump that may not be taken. -/
theorem faultLoses_jumpFlag (c : Condition) (target : Int64) :
    FaultLoses 0 (execute (.jumpFlag c target)) m := by
  unfold FaultLoses execute
  simp only [wp_bind, wp_get]
  cases c.holds m.flag with
  | true => exact (faultLoses_jump target).andThen none
  | false => exact trivial

/-! ## Instructions -/

/-- One case for each instruction: what it pops before it may fail. -/
theorem faultLoses_execute (h : m.Ready program capacity) (i : Instruction) :
    FaultLoses i.consumed (execute i) m := by
  cases i with
  | halt code => exact trivial
  | pushInt i => exact (faultLoses_push _).andThen none
  | pushString b => exact (faultLoses_push _).andThen none
  | pushRegister r => exact (faultLoses_push (m.registers.get r)).andThen none
  | pop => exact (faultLoses_pop h _).andThen none
  | popRegister r =>
    exact faultLoses_pop_bind h _ fun v _ => (faultLoses_setRegister r v).andThen none
  | store r => exact faultLoses_top_bind h _ fun v => (faultLoses_setRegister r v).andThen none
  | swap => exact (faultLoses_swapTop h).andThen none
  | dup => exact faultLoses_top_bind h _ fun v => (faultLoses_push v).andThen none
  | arithmetic op => exact (faultLoses_arithmetic h op).andThen none
  | setInt r i => exact (faultLoses_setRegister r _).andThen none
  | setString r b => exact (faultLoses_setRegister r _).andThen none
  | jump target => exact (faultLoses_jump target).andThen none
  | jumpTop c target =>
    refine FaultLoses.andThen ?_ none
    exact faultLoses_top_bind h _ fun v => faultLoses_integer_bind _ v fun i =>
      faultLoses_jump_if _ target
  | jumpRegister r =>
    exact faultLoses_integer_bind (m := m) _ (m.registers.get r) fun target =>
      (faultLoses_jump target).andThen none
  | print => exact faultLoses_top_bind h _ fun v => (faultLoses_printLine _).andThen none
  | printRegister r => exact (faultLoses_printLine (m.registers.get r).render).andThen none
  | dump => exact (faultLoses_dump h).andThen none
  | dumpRegisters => exact faultLoses_get_bind ((faultLoses_printLine _).andThen none)
  | ret => exact faultLoses_get_bind ((faultLoses_jump _).andThen none)
  | call target => exact (faultLoses_call target).andThen none
  | concat => exact (faultLoses_concat h).andThen none
  | param r offset => exact (faultLoses_param h r offset).andThen none
  | compare left right => exact faultLoses_compare left right
  | jumpFlag c target => exact faultLoses_jumpFlag c target
  | step => exact trivial

end Action

/-! ## Steps -/

namespace Machine

variable {program : Bytes} {capacity : Nat} {m : Machine} {f : Fault}

/-- The machine that a step leaves when it executes the instruction `i`, which
    ends before the address `pc`, and records the fault `f`. -/
structure Faulted (i : Instruction) (pc : Int64) (f : Fault) (m m' : Machine) : Prop where
  decoded : Fetch.decode m.memory m.registers.pc = .ok i pc
  /-- The program counter is just behind the instruction. -/
  passed : pc.toInt = m.registers.pc.toInt + i.encode.length
  /-- Nothing but an instruction's own checks has failed. -/
  fault_ne : f ≠ .terminated
  live : m'.live = m.live.take (m.live.length - i.consumed)
  code : m'.memory.code = m.memory.code
  frame : m' = { m with
    memory := m'.memory
    registers := { m.registers with pc, sp := m'.registers.sp }
    fault := some f
    output := m'.output
    journal := m'.journal }
  output : f ≠ .output → m'.output = m.output

section Steps

variable (hsize : program.length < 2 ^ 63) (hcap : capacity < 2 ^ 63)
include hsize hcap

theorem Ready.faulted_of_execute {i : Instruction} {pc : Int64} {journal : Journal}
    {m' : Machine} (hm : m.Ready program capacity)
    (hi : Fetch.decode m.memory m.registers.pc = .ok i pc)
    (h : Action.execute i (m.goTo pc journal) = .error (.fault f) m') (journal' : Journal) :
    m.Faulted i pc f { m' with fault := some f, journal := journal' } := by
  have hready := hm.goTo_of_decode_eq_ok hsize journal hi
  have hready' : m'.Ready program capacity := hm.of_execute_eq_error hsize hcap hi h
  obtain ⟨_, heq, hne, hlost, houtput⟩ := (Action.faultLoses_execute hready i).of_eq_error h
  cases heq
  exact {
    decoded := hi
    passed := hm.toInt_of_decode_eq_ok hsize hi
    fault_ne := hne
    live := hlost.live
    code := hready'.code.trans hm.code.symm
    frame := by rw [hlost.frame]; rfl
    output := houtput }

/-- A step that records a fault has executed an instruction which faulted. -/
theorem Ready.exists_faulted (hm : m.Ready program capacity) (hgo : m.terminating = false)
    (hfault : (m.after .step).fault = some f) : ∃ i pc, m.Faulted i pc f (m.after .step) := by
  have hcycles := hm.cycles hsize hcap hgo
  unfold after at hfault ⊢
  generalize m.step = r at hcycles hfault
  cases hcycles with
  | malformed decoded =>
    have hnone : m.fault = some f := hfault
    simp [hm.fault] at hnone
  | halted decoded executed =>
    have hm' := hm.of_execute_eq_ok hsize hcap decoded executed
    have hnone := hm'.fault.symm.trans hfault
    cases hnone
  | ran decoded executed =>
    have hm' := hm.of_execute_eq_ok hsize hcap decoded executed
    have hnone := hm'.fault.symm.trans hfault
    cases hnone
  | faulted decoded executed =>
    cases hfault
    exact ⟨_, _, hm.faulted_of_execute hsize hcap decoded executed _⟩

end Steps

/-- What a step that records a fault leaves behind, in every state that a machine
    can get into. Either the machine was asked to stop: then it has recorded that,
    and but for the journal nothing else has changed. Or it has executed an
    instruction, and the program counter is just behind that one. The live stack
    is without the operands that an arithmetic operation, a concatenation or a
    pop into a register takes from it, or without all of its values if there were
    fewer. The other registers, the flag, the setting of tracing and the program
    are the same, and so is the output, unless the fault is that it failed. -/
theorem step_fault_frame {config : Config} (hsize : program.length < 2 ^ 63)
    (hstack : config.stackSize < 2 ^ 63) (h : Reachable program config m)
    (hnone : m.fault = none) (hfault : (m.after .step).fault = some f) :
    (m.terminating = true ∧ f = .terminated ∧
      m.after .step = { m with
        fault := some .terminated
        journal := (m.after .step).journal }) ∨
    (m.terminating = false ∧ f ≠ .terminated ∧
      ∃ i pc stack,
        Fetch.decode m.memory m.registers.pc = .ok i pc ∧
        pc.toInt = m.registers.pc.toInt + i.encode.length ∧
        m.stack? = some stack ∧ m.registers.sp.toInt = stack.length ∧
        (m.after .step).stack? = some (stack.take (stack.length - i.consumed)) ∧
        m.after .step = { m with
          memory := (m.after .step).memory
          registers := { m.registers with pc, sp := (m.after .step).registers.sp }
          fault := some f
          output := (m.after .step).output
          journal := (m.after .step).journal } ∧
        (m.after .step).memory.code = m.memory.code ∧
        (f ≠ .output → (m.after .step).output = m.output)) := by
  have hbounded := h.bounded hsize hstack
  have hafter := (h.after .step).bounded hsize hstack
  obtain ⟨code, hexit⟩ | ⟨-, _, hsome⟩ | ⟨hexit, -, hterm⟩ | ⟨hready, hgo⟩ := hbounded.cases
  · rw [after, step_of_exitCode hexit] at hfault
    cases hnone.symm.trans hfault
  · cases hnone.symm.trans hsome
  · rw [after, step_of_terminating hexit hnone hterm] at hfault ⊢
    cases hfault
    exact .inl ⟨hterm, rfl, rfl⟩
  · obtain ⟨i, pc, hfaulted⟩ := hready.exists_faulted hsize hstack hgo hfault
    refine .inr ⟨hgo, hfaulted.fault_ne, i, pc, m.live, hfaulted.decoded, hfaulted.passed,
      hready.stack?_eq_live, hready.toInt_sp, ?_, hfaulted.frame, hfaulted.code,
      hfaulted.output⟩
    rw [← hfaulted.live]
    exact hafter.stack?_eq_live

/-- A division by zero takes both of its operands from the stack. -/
theorem step_fault_frame_of_division :
    let program := [Opcode.pushRegister.byte, 0, Opcode.pushRegister.byte, 1, Opcode.div.byte]
    let m := ((ofProgram program { stackSize := 4 }).after .step).after .step
    m.stack? = some [.zero, .zero] ∧
      (m.after .step).fault = some (.divisionByZero .div) ∧
      (m.after .step).stack? = some [] ∧ (m.after .step).registers.pc = 5 ∧
      (m.after .step).registers.general = m.registers.general := by
  intro program m
  have hreachable : Reachable program { stackSize := 4 } m := .after _ (.after _ .fresh)
  have hlive : m.stack? = some [.zero, .zero] := by decide
  have hfault : (m.after .step).fault = some (.divisionByZero .div) := by decide
  obtain ⟨hterm, -⟩ | ⟨-, -, i, pc, stack, hi, -, hstack, -, hafter, hframe, -⟩ :=
    step_fault_frame (by decide) (by decide) hreachable (by decide) hfault
  · exact absurd hterm (by decide)
  · have hdecoded : (match Fetch.decode m.memory m.registers.pc with
        | .ok i pc => decide (i = .arithmetic .div ∧ pc = 5)
        | .error _ _ => false) = true := by decide
    rw [hi] at hdecoded
    obtain ⟨rfl, rfl⟩ := of_decide_eq_true hdecoded
    cases hlive.symm.trans hstack
    refine ⟨hlive, hfault, hafter, ?_, ?_⟩
    · rw [hframe]
    · rw [hframe]

end Machine

end StackMachine
