-- SUMMARY: A machine and a list machine that run side by side, for as long as no instruction writes the stack pointer.
import StackMachine.Proofs.Continuations
import StackMachine.Proofs.Refinement

/-!
# Running in lockstep

A machine and the list machine it lists as take the same step: both stop with
the same malformation, or both end up with the same status and list alike again.
So they run side by side from their first instruction on. All the while the slots
above the stack pointer hold zero, and nothing that was popped comes back.
-/

namespace StackMachine

/-! ## Exit codes -/

namespace Action

/-- If the action has a result, it is this one. -/
def Yields (b : β) (x : Action β) : Prop :=
  ∀ m, wp x (fun b' _ => b' = b) (fun _ _ => True) m

theorem Yields.bind {b : β} {x : Action α} {f : α → Action β} (hf : ∀ a, Yields b (f a)) :
    Yields b (x >>= f) := by
  intro m
  rw [wp_bind]
  unfold wp
  cases x m with
  | ok a m' => exact hf a m'
  | error t m' => trivial

theorem Yields.andThen {b : β} (x : Action α) : Yields b (do let _ ← x; return b) :=
  Yields.bind fun _ _ => rfl

/-- Only one instruction halts. -/
theorem yields_execute (i : Instruction) : Yields i.exitCode? (execute i) := by
  cases i with
  | halt code => exact fun _ => rfl
  | pushRegister | popRegister | store | dup | print | printRegister | dumpRegisters | ret =>
    exact .bind fun _ => .andThen _
  | jumpRegister => exact .bind fun _ => .bind fun _ => .andThen _
  | compare left right =>
    refine .bind fun v => .bind fun w => ?_
    split
    · exact .andThen _
    · exact .andThen _
  | jumpFlag c target =>
    refine .bind fun m => ?_
    split
    · exact .andThen _
    · exact fun _ => rfl
  | _ => exact .andThen _

end Action

/-! ## Steps -/

namespace Machine

variable {program : Bytes} {capacity : Nat} {m : Machine} {s : ListMachine} {i : Instruction}

/-- The list is the live stack, the stack pointer is its length, and all else is
    the same. -/
structure Matches (m : Machine) (s : ListMachine) : Prop where
  program : m.memory.code.toList = s.program
  capacity : m.memory.capacity = s.capacity
  stack : m.stack? = some s.stack
  sp : m.registers.sp.toInt = s.stack.length
  length_le : s.stack.length ≤ s.capacity
  registers : m.registers = s.registers
  flag : m.flag = s.flag
  fault : m.fault = s.fault
  exitCode : m.exitCode = s.exitCode
  tracing : m.tracing = s.tracing
  terminating : m.terminating = s.terminating
  output : m.output = s.output

theorem InBounds.matches_listed (h : m.InBounds program capacity) : m.Matches m.listed where
  program := rfl
  capacity := rfl
  stack := h.stack?_eq_live
  sp := h.toInt_sp
  length_le := by
    have hle := h.length_live_le
    rwa [← h.capacity_eq] at hle
  registers := h.registers_listed.symm
  flag := rfl
  fault := rfl
  exitCode := rfl
  tracing := rfl
  terminating := rfl
  output := rfl

/-- The next step does not execute an instruction that names the stack pointer as
    the register to be written. -/
def SparesSp (m : Machine) : Prop :=
  ∀ i, m.Executes i → i.destination? ≠ some .sp

/-- The outcome of a step of a machine is, listed, that of a list machine. -/
def ListsAs : EStateM.Result Abort Machine Status →
    EStateM.Result Malformation ListMachine Status → Prop
  | .ok status m, .ok status' s => status = status' ∧ m.listed = s
  | .error (.malformed f) m, .error f' s => f = f' ∧ m.listed = s
  | _, _ => False

theorem ListsAs.listed_leftBy {r : EStateM.Result Abort Machine Status}
    {r' : EStateM.Result Malformation ListMachine Status} (h : ListsAs r r') :
    (leftBy r).listed = ListMachine.leftBy r' := by
  cases r with
  | ok status m =>
    cases r' with
    | ok status' s => exact h.2
    | error f s => exact h.elim
  | error abort m =>
    cases abort with
    | outOfBounds => exact h.elim
    | malformed f =>
      cases r' with
      | ok status s => exact h.elim
      | error f' s => exact h.2

/-- The list machine decodes the same instruction, with the same counter. -/
theorem decode_listed (m : Machine) :
    Fetch.decode (Memory.ofProgram m.listed.program 0) m.listed.pc =
      Fetch.decode m.memory m.registers.pc :=
  Fetch.seesCode_decode _ rfl

theorem Ready.step_listed (hm : m.Ready program capacity) (hgo : m.terminating = false) :
    m.listed.step = m.listed.resume (Fetch.decode m.memory m.registers.pc) := by
  rw [ListMachine.step_of_going hm.exitCode hm.fault hgo, decode_listed]

section Steps

variable (hsize : program.length < 2 ^ 63) (hcap : capacity < 2 ^ 63)
include hsize hcap

/-- The list machine executes what the machine executes, with the same ending. -/
theorem Ready.lists_of_decode {i : Instruction} {pc : Int64} (hm : m.Ready program capacity)
    (hi : Fetch.decode m.memory m.registers.pc = .ok i pc) (hsp : i.destination? ≠ some .sp)
    (journal : Journal) :
    Action.Lists (Action.execute i) ((m.listed.goTo pc).execute i) (m.goTo pc journal) :=
  Action.lists_execute (hm.goTo_of_decode_eq_ok hsize journal hi) hcap hsp

theorem Ready.listsAs_step (hm : m.Ready program capacity) (hgo : m.terminating = false)
    (hspares : m.SparesSp) : ListsAs m.step m.listed.step := by
  have hcycles := hm.cycles hsize hcap hgo
  have hlists {i : Instruction} {pc : Int64}
      (hi : Fetch.decode m.memory m.registers.pc = .ok i pc) (journal : Journal) :=
    hm.lists_of_decode hsize hcap hi (hspares i ⟨hm.fault, hm.exitCode, hgo, pc, hi⟩) journal
  rw [hm.step_listed hgo]
  generalize m.step = r at hcycles
  cases hcycles with
  | malformed decoded =>
    rw [decoded]
    exact ⟨rfl, rfl⟩
  | @halted i pc journal code m' decoded executed =>
    have hcode : some code = i.exitCode? := (Action.yields_execute i _).of_eq_ok executed
    have hlisted := (hlists decoded journal).of_eq_ok executed
    rw [decoded, ListMachine.resume, ← hcode]
    exact ⟨rfl, congrArg (·.halt code) hlisted⟩
  | @ran i pc journal m' decoded executed =>
    have hcode : none = i.exitCode? := (Action.yields_execute i _).of_eq_ok executed
    rw [decoded, ListMachine.resume, ← hcode]
    exact ⟨rfl, (hlists decoded journal).of_eq_ok executed⟩
  | @faulted i pc journal f m' journal' decoded executed =>
    have hcode : i.exitCode? = none := by
      cases i with
      | halt code => cases executed
      | _ => rfl
    obtain ⟨_, heq, hlisted⟩ := (hlists decoded journal).of_eq_error executed
    cases heq
    rw [decoded, ListMachine.resume, hcode]
    exact ⟨rfl, hlisted⟩

/-- A machine that is to go no further has done with its step. -/
theorem Bounded.listsAs_step (hm : m.Bounded program capacity) (hspares : m.SparesSp) :
    ListsAs m.step m.listed.step := by
  obtain ⟨code, hexit⟩ | ⟨hexit, f, hfault⟩ | ⟨hexit, hfault, hterm⟩ | ⟨hready, hgo⟩ := hm.cases
  · rw [step_of_exitCode hexit, ListMachine.step_of_exitCode hexit]
    exact ⟨rfl, rfl⟩
  · rw [step_of_fault hexit hfault, ListMachine.step_of_fault hexit hfault]
    exact ⟨rfl, rfl⟩
  · rw [step_of_terminating hexit hfault hterm,
      ListMachine.step_of_terminating hexit hfault hterm]
    exact ⟨rfl, rfl⟩
  · exact hready.listsAs_step hsize hcap hgo hspares

/-- A step that executes an instruction does to the list machine what that does. -/
theorem Ready.listed_step {pc : Int64} (hm : m.Ready program capacity)
    (hgo : m.terminating = false) (hi : Fetch.decode m.memory m.registers.pc = .ok i pc)
    (hsp : i.destination? ≠ some .sp) (hcode : i.exitCode? = none) :
    (m.after .step).listed = (m.listed.goTo pc).execute i := by
  have hspares : m.SparesSp := by
    rintro j ⟨-, -, -, _, hj⟩
    cases hi.symm.trans hj
    exact hsp
  have hlisted := (hm.listsAs_step hsize hcap hgo hspares).listed_leftBy
  rw [hm.step_listed hgo, hi, ListMachine.resume, hcode] at hlisted
  exact hlisted

/-- A step that executes an instruction which does not halt returns that the machine
    is running, also if it has recorded a fault. -/
theorem Bounded.step_of_not_halt (hm : m.Bounded program capacity) (h : m.Executes i)
    (hcode : i.exitCode? = none) : m.step = .ok .running (m.after .step) := by
  have hstep := hm.step_of_executes hsize hcap h (Q := fun _ => True) (T := fun _ _ => True) ?_
  · obtain ⟨m', hstep, -⟩ | ⟨f, m', journal, hstep, -⟩ := hstep
    · rw [Machine.after, hstep, leftBy]
    · rw [Machine.after, hstep, leftBy]
  · intro pc journal _ hready
    have hyields := Action.yields_execute i (m.goTo pc journal)
    have hkeeps := Action.keepsReady_execute hcap i (m.goTo pc journal) hready
    refine (hyields.and hkeeps).mono ?_ ?_
    · rintro code m' ⟨rfl, -⟩
      exact ⟨hcode, trivial⟩
    · rintro t m' ⟨-, ⟨f, hf⟩, -⟩
      exact ⟨f, hf, trivial⟩

/-- It does to the list machine what the instruction does, from behind itself. -/
theorem Bounded.listed_after_step (hm : m.Bounded program capacity) (h : m.Executes i)
    (hsp : i.destination? ≠ some .sp) (hcode : i.exitCode? = none) :
    (m.after .step).listed =
      (m.listed.goTo (m.registers.pc + .ofNat i.encode.length)).execute i := by
  have hready := hm.ready_of_executes h
  obtain ⟨-, -, hgo, pc, hdecoded⟩ := h
  have hpc := hready.toInt_of_decode_eq_ok hsize hdecoded
  rw [← Word.eq_add_ofNat hpc]
  exact hready.listed_step hsize hcap hgo hdecoded hsp hcode

end Steps

end Machine

/-! ## Slots above the stack -/

namespace Machine

variable {program : Bytes} {capacity : Nat} {m m' : Machine}

/-- The slots that are not live hold zero. -/
def Clear (m : Machine) : Prop :=
  ∀ i, m.height ≤ i → i < m.memory.capacity → m.memory.slot? i = some .zero

theorem clear_ofProgram (program : Bytes) (config : Config) :
    (ofProgram program config).Clear := by
  intro i _ hi
  have hcap : i < config.stackSize := by simpa [ofProgram] using hi
  simp [ofProgram, Memory.ofProgram, Memory.slot?, hcap]

theorem Clear.of_eq (h : m.Clear) (hmemory : m'.memory = m.memory)
    (hsp : m'.registers.sp = m.registers.sp) : m'.Clear := by
  have hheight : m'.height = m.height := by rw [height, height, hsp]
  intro i hlow hhigh
  rw [hmemory] at hhigh ⊢
  exact h i (hheight ▸ hlow) hhigh

theorem Ready.clear_popped (hm : m.Ready program capacity) (hne : m.live ≠ []) (h : m.Clear) :
    m.popped.Clear := by
  obtain ⟨hpopped, hlive⟩ := hm.popped hne
  have hheight : m.popped.height = m.height - 1 := by
    rw [← hpopped.length_live, hlive, List.length_dropLast, hm.length_live]
  intro i hlow hhigh
  have hcap : i < m.memory.capacity := by simpa [Machine.popped] using hhigh
  change (m.memory.put (m.height - 1) .zero).slot? i = _
  rw [hheight] at hlow
  rw [Memory.slot?_put]
  split
  · rfl
  · exact h i (by omega) hcap

theorem Ready.clear_pushed (hm : m.Ready program capacity) (hcap : capacity < 2 ^ 63)
    (hroom : m.live.length < capacity) (h : m.Clear) (v : Value) : (m.pushed v).Clear := by
  obtain ⟨hpushed, hlive⟩ := hm.pushed hcap hroom v
  have hheight : (m.pushed v).height = m.height + 1 := by
    rw [← hpushed.length_live, hlive, List.length_append, hm.length_live]
    rfl
  intro i hlow hhigh
  have hcap : i < m.memory.capacity := by simpa [Machine.pushed] using hhigh
  change (m.memory.put m.height v).slot? i = _
  rw [hheight] at hlow
  rw [Memory.slot?_put, if_neg (by omega)]
  exact h i (Nat.le_of_succ_le hlow) hcap

theorem Clear.swapped (h : m.Clear) (hheight : 2 ≤ m.height) : m.swapped.Clear := by
  intro i hlow hhigh
  have hcap : i < m.memory.capacity := by simpa [Machine.swapped] using hhigh
  change (m.memory.swap (m.height - 1) (m.height - 2)).slot? i = _
  change m.height ≤ i at hlow
  rw [Memory.slot?_swap_of_ne (by omega) (by omega)]
  exact h i hlow hcap

end Machine

namespace Action

variable {program : Bytes} {capacity : Nat}

/-- The action keeps a ready machine ready, and clear above its stack. -/
abbrev KeepsClear (program : Bytes) (capacity : Nat) (x : Action α) : Prop :=
  Keeps (fun m => m.Ready program capacity ∧ m.Clear) (fun t => ∃ f, t = .fault f) x

/-- The action leaves the stack and the stack pointer as they are. -/
abbrev KeepsStack (x : Action α) : Prop :=
  ∀ m, wp x (fun _ m' => m'.memory = m.memory ∧ m'.registers.sp = m.registers.sp)
    (fun _ m' => m'.memory = m.memory ∧ m'.registers.sp = m.registers.sp) m

theorem KeepsStack.keepsClear {x : Action α} (hx : KeepsStack x)
    (hready : KeepsReady program capacity x) : KeepsClear program capacity x := by
  rintro m ⟨hm, hclear⟩
  refine ((hready m hm).and (hx m)).mono ?_ ?_
  · rintro a m' ⟨hm', hmemory, hsp⟩
    exact ⟨hm', hclear.of_eq hmemory hsp⟩
  · rintro t m' ⟨⟨hfault, hm'⟩, hmemory, hsp⟩
    exact ⟨hfault, hm', hclear.of_eq hmemory hsp⟩

theorem keepsStack_jump (target : Int64) : KeepsStack (jump target) := by
  intro m
  rw [wp_jump]
  exact ⟨fun _ => ⟨rfl, rfl⟩, fun _ => ⟨rfl, rfl⟩⟩

theorem keepsStack_setRegister {r : Register} (hsp : r ≠ .sp) (v : Value) :
    KeepsStack (setRegister r v) := by
  intro m
  by_cases hpc : r = .pc
  · subst hpc
    cases v with
    | int target => exact keepsStack_jump target m
    | bytes b => exact ⟨rfl, rfl⟩
  · rw [wp_setRegister_of_ne hpc hsp]
    cases hset : m.registers.set? r v with
    | none => exact ⟨rfl, rfl⟩
    | some registers =>
      exact ⟨rfl, Value.int.inj (RegisterFile.get_set?_of_ne hset hsp)⟩

theorem keepsStack_call (target : Int64) : KeepsStack (call target) := by
  intro m
  unfold call
  rw [wp_bind, wp_checkTarget]
  exact ⟨fun _ => ⟨rfl, rfl⟩, fun _ => ⟨rfl, rfl⟩⟩

theorem keepsStack_printLine (line : Text) : KeepsStack (printLine line) := by
  intro m
  rw [wp_printLine]
  exact ⟨fun _ => ⟨rfl, rfl⟩, fun _ => ⟨rfl, rfl⟩⟩

theorem keepsClear_pop (op : Opcode) : KeepsClear program capacity (pop op) := by
  rintro m ⟨hm, hclear⟩
  rw [wp_pop_live hm]
  cases hlast : m.live.getLast? with
  | none => exact ⟨⟨_, rfl⟩, hm, hclear⟩
  | some v =>
    have hne : m.live ≠ [] := fun hempty => by simp [hempty] at hlast
    exact ⟨(hm.popped hne).1, hm.clear_popped hne hclear⟩

theorem keepsClear_push (hcap : capacity < 2 ^ 63) (v : Value) :
    KeepsClear program capacity (push v) := by
  rintro m ⟨hm, hclear⟩
  rw [wp_push_live hm]
  split
  · rename_i hroom
    exact ⟨(hm.pushed hcap hroom v).1, hm.clear_pushed hcap hroom hclear v⟩
  · exact ⟨⟨_, rfl⟩, hm, hclear⟩

theorem keepsClear_swapTop : KeepsClear program capacity swapTop := by
  rintro m ⟨hm, hclear⟩
  have hready := keepsReady_swapTop m hm
  rw [wp_swapTop_live hm] at hready ⊢
  by_cases hlow : m.live.length < 2
  · simp only [hlow, if_true] at hready ⊢
    exact ⟨hready.1, hready.2, hclear⟩
  · simp only [hlow, if_false] at hready ⊢
    rw [hm.length_live] at hlow
    exact ⟨hready, hclear.swapped (Nat.le_of_not_lt hlow)⟩

/-- No instruction that spares the stack pointer leaves a value above the stack. -/
theorem keepsClear_execute (hcap : capacity < 2 ^ 63) {i : Instruction}
    (hsp : i.destination? ≠ some .sp) : KeepsClear program capacity (execute i) := by
  refine Closed.execute ?_
  exact {
    fault := fun f => ⟨f, rfl⟩
    live := fun m hm => .inl hm.1.height_le
    pop := keepsClear_pop
    push := keepsClear_push hcap
    swap := keepsClear_swapTop
    write := fun r hr v =>
      (keepsStack_setRegister (fun hrsp => hsp (hrsp ▸ hr)) v).keepsClear
        (keepsReady_setRegister r v)
    jump := fun _ target => (keepsStack_jump target).keepsClear (keepsReady_jump target)
    call := fun target _ => (keepsStack_call target).keepsClear (keepsReady_call target)
    print := fun _ line => (keepsStack_printLine line).keepsClear (keepsReady_printLine line)
    flag := fun m flag hm => ⟨{ hm.1 with }, hm.2.of_eq rfl rfl⟩
    trace := Keeps.modify fun m hm => ⟨{ hm.1 with }, hm.2.of_eq rfl rfl⟩ }

end Action

/-! ## Runs -/

namespace Machine

variable {program : Bytes} {config : Config} {m : Machine} {s : ListMachine}

/-- A machine and a list machine that were set up alike and have had the same
    calls. No step has executed an instruction that names the stack pointer as
    the register to be written. -/
inductive Lockstep (program : Bytes) (config : Config) : Machine → ListMachine → Prop
  | fresh : Lockstep program config (ofProgram program config) (.ofProgram program config)
  | step {m : Machine} {s : ListMachine} (h : Lockstep program config m s)
      (hspares : m.SparesSp) : Lockstep program config (m.after .step) s.stepped
  | terminate {m : Machine} {s : ListMachine} (on : Bool) (h : Lockstep program config m s) :
      Lockstep program config (m.after (.terminate on)) { s with terminating := on }
  | output {m : Machine} {s : ListMachine} (sink : Sink) (h : Lockstep program config m s) :
      Lockstep program config (m.after (.output sink)) { s with output := sink }

theorem Lockstep.reachable (h : Lockstep program config m s) : Reachable program config m := by
  induction h with
  | fresh => exact .fresh
  | step _ _ ih => exact .after _ ih
  | terminate _ _ ih => exact .after _ ih
  | output _ _ ih => exact .after _ ih

section Sizes

variable (hsize : program.length < 2 ^ 63) (hstack : config.stackSize < 2 ^ 63)
include hsize hstack

theorem Bounded.clear_step (hm : m.Bounded program config.stackSize) (hspares : m.SparesSp)
    (h : m.Clear) : (m.after .step).Clear := by
  refine hm.keeps_step hsize hstack ?_ h ?_
  · intro n n' hn hmemory hregisters
    exact hn.of_eq hmemory (by rw [hregisters])
  · intro i pc journal hi _ hready
    have hkeeps := Action.keepsClear_execute hstack (hspares i hi) (m.goTo pc journal)
      ⟨hready, h.of_eq rfl rfl⟩
    exact hkeeps.mono (fun _ _ hm' => hm'.2) fun _ _ hm' => hm'.2.2

theorem Lockstep.clear (h : Lockstep program config m s) : m.Clear := by
  induction h with
  | fresh => exact clear_ofProgram program config
  | step h hspares ih => exact (h.reachable.bounded hsize hstack).clear_step hsize hstack hspares ih
  | terminate _ _ ih => exact ih.of_eq rfl rfl
  | output _ _ ih => exact ih.of_eq rfl rfl

end Sizes

end Machine

end StackMachine
