-- SUMMARY: The states that a host can bring a machine into, and the bounds that hold in all of them.
import StackMachine.Proofs.Stepping

/-!
# Reachable states

A host drives a machine by calls: it takes single steps, runs it, sets the
request to stop, and the sink behind the output may change on its own. Calls may
go on after a fault, a halt or a malformation. Whatever the calls, a machine
stays within its bounds, so no call and no view of the stack ever reaches
outside the slots that are there.
-/

namespace StackMachine

/-- What happens to a machine between two instructions of its program. -/
inductive Call where
  | step
  /-- Run the machine, for at most so many steps. -/
  | run (bound : Nat)
  /-- Ask the machine to stop before its next instruction, or no longer. -/
  | terminate (on : Bool)
  /-- The sink takes bytes from elsewhere, or its limit changes. -/
  | output (sink : Sink)

namespace Machine

/-- The machine that an action leaves, whatever it returns. -/
def leftBy : EStateM.Result Abort Machine α → Machine
  | .ok _ m => m
  | .error _ m => m

/-- The machine after a call. -/
def after (m : Machine) : Call → Machine
  | .step => leftBy m.step
  | .run bound => leftBy (m.run bound)
  | .terminate on => { m with terminating := on }
  | .output sink => { m with output := sink }

/-- The states of a machine that was set up on a program. -/
inductive Reachable (program : Bytes) (config : Config) : Machine → Prop
  | fresh : Reachable program config (ofProgram program config)
  | after {m : Machine} (c : Call) (h : Reachable program config m) :
      Reachable program config (m.after c)

/-- A machine within its bounds that has not both faulted and halted. -/
structure Bounded (program : Bytes) (capacity : Nat) (m : Machine) : Prop
    extends InBounds program capacity m where
  ended : m.fault = none ∨ m.exitCode = none

variable {program : Bytes} {capacity : Nat} {m : Machine}

theorem Ready.bounded (h : m.Ready program capacity) : m.Bounded program capacity :=
  ⟨h.toInBounds, .inl h.fault⟩

/-- A bounded machine has ended, is asked to stop, or goes on. -/
theorem Bounded.cases (h : m.Bounded program capacity) :
    (∃ code, m.exitCode = some code) ∨ (m.exitCode = none ∧ ∃ f, m.fault = some f) ∨
    (m.exitCode = none ∧ m.fault = none ∧ m.terminating = true) ∨
    (m.Ready program capacity ∧ m.terminating = false) := by
  cases hexit : m.exitCode with
  | some code => exact .inl ⟨code, rfl⟩
  | none =>
    cases hfault : m.fault with
    | some f => exact .inr (.inl ⟨rfl, f, rfl⟩)
    | none =>
      cases hterm : m.terminating with
      | true => exact .inr (.inr (.inl ⟨rfl, rfl, rfl⟩))
      | false => exact .inr (.inr (.inr ⟨⟨h.toInBounds, hfault, hexit⟩, rfl⟩))

/-- An ending that leaves a bounded machine and never lies outside the stack. -/
def Secure (program : Bytes) (capacity : Nat) : EStateM.Result Abort Machine α → Prop
  | .ok _ m => m.Bounded program capacity
  | .error a m => (∃ f, a = .malformed f) ∧ m.Bounded program capacity

theorem Secure.leftBy {r : EStateM.Result Abort Machine α} (h : Secure program capacity r) :
    (leftBy r).Bounded program capacity := by
  cases r with
  | ok a m => exact h
  | error a m => exact h.2

theorem Secure.bind {x : EStateM Abort Machine α} {f : α → EStateM Abort Machine β}
    (hx : Secure program capacity (x m))
    (hf : ∀ a m', m'.Bounded program capacity → Secure program capacity (f a m')) :
    Secure program capacity ((x >>= f) m) := by
  simp only [Bind.bind, EStateM.bind]
  cases hxm : x m with
  | ok a m' =>
    rw [hxm] at hx
    exact hf a m' hx
  | error a m' =>
    rw [hxm] at hx
    exact hx

section Calls

variable (hsize : program.length < 2 ^ 63) (hcap : capacity < 2 ^ 63)
include hsize hcap

theorem Ready.secure_of_cycles {r : EStateM.Result Abort Machine Status}
    (hm : m.Ready program capacity) (hr : m.Cycles r) : Secure program capacity r := by
  have hcode : m.memory.code.size < 2 ^ 63 := by rw [hm.code_size]; exact hsize
  cases hr with
  | @malformed f pc journal decoded =>
    have hleaves := Fetch.leavesAt_of_decode_eq_error hcode hm.inReach decoded
    have hreach : m.memory.InReach pc :=
      hleaves.inReach (Int.add_nonneg hm.zero_le_pc (by decide))
    exact ⟨⟨f, rfl⟩, (hm.goTo journal hreach).bounded⟩
  | halted decoded executed =>
    have hm' := hm.of_execute_eq_ok hsize hcap decoded executed
    exact ⟨{ hm'.toInBounds with }, .inl hm'.fault⟩
  | ran decoded executed => exact (hm.of_execute_eq_ok hsize hcap decoded executed).bounded
  | faulted decoded executed =>
    have hm' := hm.of_execute_eq_error hsize hcap decoded executed
    exact ⟨{ hm'.toInBounds with }, .inr hm'.exitCode⟩

/-- A step of a machine that has ended, or is asked to stop, changes no bound. -/
theorem Bounded.secure_step (hm : m.Bounded program capacity) :
    Secure program capacity m.step := by
  obtain ⟨code, hexit⟩ | ⟨hexit, f, hfault⟩ | ⟨hexit, hfault, hterm⟩ | ⟨hready, hgo⟩ := hm.cases
  · rw [step_of_exitCode hexit]
    exact hm
  · rw [step_of_fault hexit hfault]
    exact hm
  · rw [step_of_terminating hexit hfault hterm]
    exact ⟨{ hm.toInBounds with }, .inr hexit⟩
  · exact hready.secure_of_cycles hsize hcap (hready.cycles hsize hcap hgo)

/-- A run is steps, and a last entry in the journal or line on the output. -/
theorem Bounded.secure_run (bound : Nat) (hm : m.Bounded program capacity) :
    Secure program capacity (m.run bound) := by
  induction bound generalizing m with
  | zero => exact hm
  | succ bound ih =>
    refine Secure.bind (hm.secure_step hsize hcap) fun status m' hm' => ?_
    cases status with
    | running => exact ih hm'
    | halted code => exact ⟨{ hm'.toInBounds with }, hm'.ended⟩
    | faulted => exact ⟨{ hm'.toInBounds with }, hm'.ended⟩

theorem Bounded.after (hm : m.Bounded program capacity) (c : Call) :
    (m.after c).Bounded program capacity := by
  cases c with
  | step => exact (hm.secure_step hsize hcap).leftBy
  | run bound => exact (hm.secure_run hsize hcap bound).leftBy
  | terminate on => exact ⟨{ hm.toInBounds with }, hm.ended⟩
  | output sink => exact ⟨{ hm.toInBounds with }, hm.ended⟩

end Calls

theorem Reachable.bounded {config : Config} (hsize : program.length < 2 ^ 63)
    (hstack : config.stackSize < 2 ^ 63) (h : Reachable program config m) :
    m.Bounded program config.stackSize := by
  induction h with
  | fresh => exact (ready_ofProgram program config).bounded
  | after c _ ih => exact ih.after hsize hstack c

section Invariants

variable {P : Machine → Prop} (hstep : ∀ m, P m → P (leftBy m.step))
  (hframe : ∀ m m' : Machine, P m → m'.memory = m.memory → m'.registers = m.registers →
    m'.fault = m.fault → m'.exitCode = m.exitCode → P m')
include hstep hframe

theorem leftBy_run (bound : Nat) (hm : P m) : P (leftBy (m.run bound)) := by
  induction bound generalizing m with
  | zero => exact hm
  | succ bound ih =>
    change P (leftBy ((step >>= _) m))
    have hleft := hstep m hm
    simp only [Bind.bind, EStateM.bind]
    cases hm' : m.step with
    | error a m' =>
      rw [hm'] at hleft
      exact hleft
    | ok status m' =>
      rw [hm'] at hleft
      cases status with
      | running => exact ih hleft
      | halted code => exact hframe _ _ hleft rfl rfl rfl rfl
      | faulted => exact hframe _ _ hleft rfl rfl rfl rfl

/-- An invariant of steps that looks at the memory, the registers and the ending
    only holds in all reachable states. -/
theorem Reachable.invariant {config : Config} (hfresh : P (ofProgram program config))
    (h : Reachable program config m) : P m := by
  induction h with
  | fresh => exact hfresh
  | after c _ ih =>
    cases c with
    | step => exact hstep _ ih
    | run bound => exact leftBy_run hstep hframe bound ih
    | terminate on => exact hframe _ _ ih rfl rfl rfl rfl
    | output sink => exact hframe _ _ ih rfl rfl rfl rfl

end Invariants

theorem Secure.ne_outOfBounds {r : EStateM.Result Abort Machine α}
    (h : Secure program capacity r) (m' : Machine) : r ≠ .error .outOfBounds m' := by
  rintro rfl
  obtain ⟨⟨f, hf⟩, _⟩ := h
  cases hf

/-- Whatever calls a machine has had, its program counter lies in the program or
    just behind it, its stack pointer is a height of the stack, the stack has
    the capacity it was set up with, and the machine has not both faulted and
    halted. So the live stack and the state can always be shown, and neither a
    step nor a run ever reaches outside the stack. The other accesses are checked
    where they are made, and so cannot fail: `Memory.byte?` tells an address behind the
    program from a byte, `Fetch.register` refuses a number that is no register's before
    the register is looked at, and `Arithmetic.result?` tells a divisor of zero. -/
theorem reachable_within_bounds {config : Config} (hsize : program.length < 2 ^ 63)
    (hstack : config.stackSize < 2 ^ 63) (h : Reachable program config m) :
    (0 ≤ m.registers.pc.toInt ∧ m.registers.pc.toInt ≤ program.length) ∧
    (0 ≤ m.registers.sp.toInt ∧ m.registers.sp.toInt ≤ m.memory.capacity) ∧
    m.memory.capacity = config.stackSize ∧
    ¬ (m.fault.isSome ∧ m.exitCode.isSome) ∧
    (∃ stack, m.stack? = some stack) ∧
    (∃ s, m.snapshot? = some s) ∧
    (∀ m', m.step ≠ .error .outOfBounds m') ∧
    ∀ bound m', m.run bound ≠ .error .outOfBounds m' := by
  have hm : m.Bounded program config.stackSize := h.bounded hsize hstack
  refine ⟨⟨hm.zero_le_pc, hm.pc_le⟩, ⟨hm.zero_le_sp, ?_⟩, hm.capacity_eq, ?_, hm.exists_stack,
    hm.exists_snapshot, (hm.secure_step hsize hstack).ne_outOfBounds,
    fun bound => (hm.secure_run hsize hstack bound).ne_outOfBounds⟩
  · rw [hm.capacity_eq]
    exact hm.sp_le
  · rintro ⟨hfault, hexit⟩
    obtain hnone | hnone := hm.ended
    · simp [hnone] at hfault
    · simp [hnone] at hexit

/-- A step after a run that popped an empty stack, with a request to stop. -/
theorem reachable_within_bounds_after_underflow :
    let m := (((ofProgram [Opcode.pop.byte] { stackSize := 2 }).after (.run 1)).after
      (.terminate true)).after .step
    m.fault = some (.stackUnderflow .pop) ∧
    Reachable [Opcode.pop.byte] { stackSize := 2 } m ∧
    (0 ≤ m.registers.pc.toInt ∧ m.registers.pc.toInt ≤ 1) ∧
    ∀ m', m.step ≠ .error .outOfBounds m' := by
  have h : Reachable [Opcode.pop.byte] { stackSize := 2 }
      ((((ofProgram [Opcode.pop.byte] { stackSize := 2 }).after (.run 1)).after
        (.terminate true)).after .step) := .after _ (.after _ (.after _ .fresh))
  have hbounds := reachable_within_bounds (by decide) (by decide) h
  exact ⟨by decide, h, hbounds.1, hbounds.2.2.2.2.2.2.1⟩

end Machine
end StackMachine
