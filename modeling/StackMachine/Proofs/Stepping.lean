-- SUMMARY: The outcomes of a step: what was decoded, and how its execution ended.
import StackMachine.Machine.Run
import StackMachine.Proofs.Bounds
import StackMachine.Proofs.Fetching

/-!
# Steps

A step of a machine that is ready has four outcomes: the bytes at the program
counter are no instruction, or they are one and its execution halts, goes on or
faults. `Machine.Cycles` says so once; facts about steps are case analyses on
it. What a step records in the journal changes nothing else.
-/

namespace StackMachine

namespace Machine

/-- The machine with its program counter moved, and more in its journal. -/
def goTo (m : Machine) (pc : Int64) (journal : Journal) : Machine :=
  { m with registers := { m.registers with pc }, journal }

variable {program : Bytes} {capacity : Nat} {m : Machine}

theorem Ready.goTo {pc : Int64} (h : m.Ready program capacity) (journal : Journal)
    (hpc : m.memory.InReach pc) : (m.goTo pc journal).Ready program capacity where
  code := h.code
  capacity_eq := h.capacity_eq
  zero_le_pc := hpc.1
  pc_le := by rw [← h.code_size]; exact hpc.2
  zero_le_sp := h.zero_le_sp
  sp_le := h.sp_le
  fault := h.fault
  exitCode := h.exitCode

theorem InBounds.inReach (h : m.InBounds program capacity) : m.memory.InReach m.registers.pc :=
  ⟨h.zero_le_pc, by rw [h.code_size]; exact h.pc_le⟩

/-- Behind what it decodes a machine is as ready as before. -/
theorem Ready.goTo_of_decode_eq_ok {i : Instruction} {pc : Int64}
    (hsize : program.length < 2 ^ 63) (h : m.Ready program capacity) (journal : Journal)
    (hi : Fetch.decode m.memory m.registers.pc = .ok i pc) :
    (m.goTo pc journal).Ready program capacity := by
  have hcode : m.memory.code.size < 2 ^ 63 := by rw [h.code_size]; exact hsize
  exact h.goTo journal (Fetch.inReach_of_decode_eq_ok hcode h.inReach hi)

/-! ## The journal -/

/-- Recording an event shows the live stack, and changes the journal only. -/
theorem record_eq {stack : List Value} (h : m.stack? = some stack) (level : Level)
    (event : Snapshot → Event) :
    ∃ journal, Action.record level event m = .ok () { m with journal } := by
  unfold Action.record
  split
  · simp only [snapshot?, h, Option.map_some]
    exact ⟨_, rfl⟩
  · exact ⟨m.journal, rfl⟩

theorem afterRecord_eq {stack : List Value} (h : m.stack? = some stack)
    (event : Snapshot → Event) :
    ∃ journal, ∀ go, m.afterRecord event go = go { m with journal } := by
  obtain ⟨journal, hrecord⟩ := record_eq h .error event
  refine ⟨journal, fun go => ?_⟩
  rw [afterRecord, hrecord]

/-- An event that shows the state is recorded as any other event of its level. -/
theorem record_eq_add {level : Level} {event : Snapshot → Event} {s : Snapshot}
    (hs : m.snapshot? = some s) (hlevel : (event s).level = level) :
    Action.record level event m = .ok () { m with journal := m.journal.add (event s) } := by
  subst hlevel
  unfold Action.record Journal.add
  rw [hs]
  by_cases hkeeps : m.journal.keeps (event s).level = true
  · simp only [if_pos hkeeps]
  · simp only [if_neg hkeeps]

/-! ## Cycles -/

/-- The journal behind an opcode that was read, in the state `s`. -/
def journalBehind (m : Machine) (op : Opcode) (s : Snapshot) : Journal :=
  if m.tracing then (m.journal.add (.fetched op s)).add (.traced m.registers.pc op s)
  else m.journal.add (.fetched op s)

theorem cycle_of_unknown {f : Malformation} {pc : Int64}
    (hop : Fetch.opcode m.memory m.registers.pc = .error f pc) :
    Action.cycle m = .error (.malformed f) (m.goTo pc m.journal) := by
  unfold Action.cycle
  change (Action.fetch Fetch.opcode >>= _) m = _
  rw [Action.bind_apply, Action.fetch, hop]
  rfl

/-- The record of the opcode, and while tracing that of its address, come between the
    opcode and the operands. -/
theorem cycle_of_opcode {op : Opcode} {pc : Int64} {s : Snapshot}
    (hop : Fetch.opcode m.memory m.registers.pc = .ok op pc)
    (hs : (m.goTo pc m.journal).snapshot? = some s) :
    Action.cycle m =
      (Action.fetch (Fetch.instruction op) >>= Action.execute)
        (m.goTo pc (m.journalBehind op s)) := by
  have hfetched : Action.record .debug (.fetched op) (m.goTo pc m.journal) =
      .ok () (m.goTo pc (m.journal.add (.fetched op s))) := record_eq_add hs rfl
  unfold Action.cycle journalBehind
  change (Action.fetch Fetch.opcode >>= _) m = _
  rw [Action.bind_apply, Action.fetch, hop]
  change (Action.record .debug (.fetched op) >>= _) (m.goTo pc m.journal) = _
  rw [Action.bind_apply, hfetched]
  change (if m.tracing = true then _ else _ : Action _)
    (m.goTo pc (m.journal.add (.fetched op s))) = _
  split
  · -- The journal of a machine does not show in its snapshot.
    have htraced : Action.record .info (.traced m.registers.pc op)
        (m.goTo pc (m.journal.add (.fetched op s))) =
        .ok () (m.goTo pc ((m.journal.add (.fetched op s)).add (.traced m.registers.pc op s))) :=
      record_eq_add hs rfl
    rw [Action.bind_apply, htraced]
  · rfl

/-- Fetching the operands of an opcode and executing the instruction. -/
theorem fetch_execute_eq (op : Opcode) (m : Machine) :
    (Action.fetch (Fetch.instruction op) >>= Action.execute) m =
      match Fetch.instruction op m.memory m.registers.pc with
      | .error f pc => .error (.malformed f) (m.goTo pc m.journal)
      | .ok i pc => Action.execute i (m.goTo pc m.journal) := by
  rw [Action.bind_apply, Action.fetch]
  cases Fetch.instruction op m.memory m.registers.pc <;> rfl

/-- A cycle decodes an instruction and executes it. -/
theorem cycle_eq {stack : List Value} (h : m.stack? = some stack) :
    ∃ journal, Action.cycle m =
      match Fetch.decode m.memory m.registers.pc with
      | .error f pc => .error (.malformed f) (m.goTo pc journal)
      | .ok i pc => Action.execute i (m.goTo pc journal) := by
  unfold Fetch.decode
  rw [Fetch.bind_apply]
  cases hop : Fetch.opcode m.memory m.registers.pc with
  | error f pc => exact ⟨m.journal, cycle_of_unknown hop⟩
  | ok op pc =>
    obtain ⟨s, hs⟩ : ∃ s, (m.goTo pc m.journal).snapshot? = some s := by
      unfold snapshot?
      change ∃ s, m.stack?.map _ = some s
      rw [h]
      exact ⟨_, rfl⟩
    refine ⟨m.journalBehind op s, ?_⟩
    rw [cycle_of_opcode hop hs]
    exact fetch_execute_eq op _

/-! ## Machines that go no further -/

theorem step_of_exitCode {code : UInt8} (hexit : m.exitCode = some code) :
    m.step = .ok (.halted code) m := by
  unfold step
  rw [hexit]

theorem step_of_fault {f : Fault} (hexit : m.exitCode = none) (hfault : m.fault = some f) :
    m.step = .ok .faulted m := by
  unfold step
  rw [hexit, hfault]

theorem step_of_terminating (hexit : m.exitCode = none) (hfault : m.fault = none)
    (hterm : m.terminating = true) :
    m.step = .ok .faulted
      { m with fault := some .terminated, journal := m.journal.add .terminating } := by
  unfold step
  rw [hexit, hfault]
  exact if_pos hterm

/-! ## Outcomes of a step -/

/-- The outcomes of a step that decodes, by what decoding and execution give. -/
inductive Cycles (m : Machine) : EStateM.Result Abort Machine Status → Prop
  | malformed {f : Malformation} {pc : Int64} {journal : Journal}
      (decoded : Fetch.decode m.memory m.registers.pc = .error f pc) :
      Cycles m (.error (.malformed f) (m.goTo pc journal))
  | halted {i : Instruction} {pc : Int64} {journal : Journal} {code : UInt8} {m' : Machine}
      (decoded : Fetch.decode m.memory m.registers.pc = .ok i pc)
      (executed : Action.execute i (m.goTo pc journal) = .ok (some code) m') :
      Cycles m (.ok (.halted code) { m' with exitCode := some code })
  | ran {i : Instruction} {pc : Int64} {journal : Journal} {m' : Machine}
      (decoded : Fetch.decode m.memory m.registers.pc = .ok i pc)
      (executed : Action.execute i (m.goTo pc journal) = .ok none m') :
      Cycles m (.ok .running m')
  | faulted {i : Instruction} {pc : Int64} {journal : Journal} {f : Fault} {m' : Machine}
      {journal' : Journal}
      (decoded : Fetch.decode m.memory m.registers.pc = .ok i pc)
      (executed : Action.execute i (m.goTo pc journal) = .error (.fault f) m') :
      Cycles m (.ok .running { m' with fault := some f, journal := journal' })

/-- The outcome of a step, by the ending of the execution of its instruction. -/
inductive StepOf : EStateM.Result Trap Machine (Option UInt8) →
    EStateM.Result Abort Machine Status → Prop
  | halted (code : UInt8) (m : Machine) :
      StepOf (.ok (some code) m) (.ok (.halted code) { m with exitCode := some code })
  | ran (m : Machine) : StepOf (.ok none m) (.ok .running m)
  | faulted (f : Fault) (m : Machine) (journal : Journal) :
      StepOf (.error (.fault f) m) (.ok .running { m with fault := some f, journal })

theorem Cycles.of_decode_eq_error {r : EStateM.Result Abort Machine Status} {f : Malformation}
    {pc : Int64} (h : m.Cycles r) (hf : Fetch.decode m.memory m.registers.pc = .error f pc) :
    ∃ journal, r = .error (.malformed f) (m.goTo pc journal) := by
  cases h with
  | malformed decoded =>
    cases hf.symm.trans decoded
    exact ⟨_, rfl⟩
  | halted decoded executed => cases hf.symm.trans decoded
  | ran decoded executed => cases hf.symm.trans decoded
  | faulted decoded executed => cases hf.symm.trans decoded

theorem Cycles.of_decode_eq_ok {r : EStateM.Result Abort Machine Status} {i : Instruction}
    {pc : Int64} (h : m.Cycles r) (hi : Fetch.decode m.memory m.registers.pc = .ok i pc) :
    ∃ journal, StepOf (Action.execute i (m.goTo pc journal)) r := by
  cases h with
  | malformed decoded => cases hi.symm.trans decoded
  | @halted _ _ journal code m' decoded executed =>
    cases hi.symm.trans decoded
    exact ⟨journal, executed ▸ .halted code m'⟩
  | @ran _ _ journal m' decoded executed =>
    cases hi.symm.trans decoded
    exact ⟨journal, executed ▸ .ran m'⟩
  | @faulted _ _ journal f m' journal' decoded executed =>
    cases hi.symm.trans decoded
    exact ⟨journal, executed ▸ .faulted f m' journal'⟩

/-- The machine executes the instruction in its next step. -/
def Executes (m : Machine) (i : Instruction) : Prop :=
  m.fault = none ∧ m.exitCode = none ∧ m.terminating = false ∧
    ∃ pc, Fetch.decode m.memory m.registers.pc = .ok i pc

/-- What an action that keeps a machine ready ends in. -/
theorem Ready.cases_of_keeps {x : Action α} (hm : m.Ready program capacity)
    (hx : Action.KeepsReady program capacity x) :
    (∃ a m', x m = .ok a m' ∧ m'.Ready program capacity) ∨
    (∃ f m', x m = .error (.fault f) m' ∧ m'.Ready program capacity) := by
  have h := hx m hm
  unfold Action.wp at h
  cases hxm : x m with
  | ok a m' =>
    rw [hxm] at h
    exact .inl ⟨a, m', rfl, h⟩
  | error t m' =>
    rw [hxm] at h
    obtain ⟨⟨f, rfl⟩, hm'⟩ := h
    exact .inr ⟨f, m', rfl, hm'⟩

variable (hsize : program.length < 2 ^ 63) (hcap : capacity < 2 ^ 63)
include hsize hcap

/-- Execution of what a ready machine decodes leaves a ready machine, in which it
    may have recorded a fault or an exit code. -/
theorem Ready.execute {i : Instruction} {pc : Int64} (hm : m.Ready program capacity)
    (hi : Fetch.decode m.memory m.registers.pc = .ok i pc) (journal : Journal) :
    (∃ code m', Action.execute i (m.goTo pc journal) = .ok code m' ∧
      m'.Ready program capacity) ∨
    (∃ f m', Action.execute i (m.goTo pc journal) = .error (.fault f) m' ∧
      m'.Ready program capacity) :=
  (hm.goTo_of_decode_eq_ok hsize journal hi).cases_of_keeps (Action.keepsReady_execute hcap i)

section Executed

variable {i : Instruction} {pc : Int64} {journal : Journal} {m' : Machine}
  (hi : Fetch.decode m.memory m.registers.pc = .ok i pc)
include hi

theorem Ready.of_execute_eq_ok {code : Option UInt8} (hm : m.Ready program capacity)
    (h : Action.execute i (m.goTo pc journal) = .ok code m') : m'.Ready program capacity := by
  obtain ⟨_, _, hok, hm'⟩ | ⟨_, _, herror, -⟩ := hm.execute hsize hcap hi journal
  · rw [h] at hok
    cases hok
    exact hm'
  · rw [h] at herror
    cases herror

theorem Ready.of_execute_eq_error {f : Fault} (hm : m.Ready program capacity)
    (h : Action.execute i (m.goTo pc journal) = .error (.fault f) m') :
    m'.Ready program capacity := by
  obtain ⟨_, _, hok, -⟩ | ⟨_, _, herror, hm'⟩ := hm.execute hsize hcap hi journal
  · rw [h] at hok
    cases hok
  · rw [h] at herror
    cases herror
    exact hm'

end Executed

theorem Ready.cycles (hm : m.Ready program capacity) (hgo : m.terminating = false) :
    m.Cycles m.step := by
  obtain ⟨stack, hstack⟩ := hm.exists_stack
  obtain ⟨journal, hcycle⟩ := cycle_eq hstack
  unfold step
  simp only [hm.exitCode, hm.fault, hgo, Bool.false_eq_true, if_false, hcycle]
  cases hdecoded : Fetch.decode m.memory m.registers.pc with
  | error f pc =>
    obtain ⟨journal', hrecord⟩ := afterRecord_eq (m := m.goTo pc journal) hstack (.malformed f)
    simp only [hrecord]
    exact .malformed hdecoded
  | ok i pc =>
    obtain ⟨result, m', hexecuted, hm'⟩ | ⟨f, m', hexecuted, hm'⟩ :=
      hm.execute hsize hcap hdecoded journal
    · simp only [hexecuted]
      cases result with
      | none => exact .ran hdecoded hexecuted
      | some code => exact .halted hdecoded hexecuted
    · obtain ⟨stack', hstack'⟩ := hm'.exists_stack
      obtain ⟨journal', hrecord⟩ := afterRecord_eq hstack' (.faulted f)
      simp only [hexecuted, hrecord]
      exact .faulted hdecoded hexecuted

end Machine
end StackMachine
