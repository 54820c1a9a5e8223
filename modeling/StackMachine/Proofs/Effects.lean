-- SUMMARY: What instructions, steps and runs do to the output and the journal.
import StackMachine.Proofs.Runs

/-!
# Effects

An instruction does nothing to the output but write lines, and nothing to the journal
but record stored values and changes of tracing. So an invariant of the two holds
behind any instruction if it survives that. A step adds nothing to the output, and a
run at most the line of a fault.
-/

namespace StackMachine

theorem Sink.isPrefix_write (sink : Sink) (bytes : Bytes) :
    sink.bytes <+: (sink.write bytes).bytes := by
  rw [bytes_write]
  exact List.prefix_append _ _

/-! ## Instructions -/

namespace Action

variable {P : Sink → Journal → Prop}

/-- The action leaves the output and the journal as they are. -/
def Silent (x : Action α) : Prop :=
  ∀ m, wp x (fun _ m' => m'.output = m.output ∧ m'.journal = m.journal)
    (fun _ m' => m'.output = m.output ∧ m'.journal = m.journal) m

theorem Silent.keeps {x : Action α} (hx : Silent x) :
    Keeps (fun m => P m.output m.journal) (fun _ => True) x := by
  intro m hm
  refine (hx m).mono ?_ ?_
  · rintro a m' ⟨houtput, hjournal⟩
    rwa [houtput, hjournal]
  · rintro t m' ⟨houtput, hjournal⟩
    refine ⟨trivial, ?_⟩
    beta_reduce
    rwa [houtput, hjournal]

theorem silent_pop (op : Opcode) : Silent (pop op) := by
  intro m
  rw [wp_pop]
  refine ⟨fun _ => ⟨rfl, rfl⟩, fun _ => ?_⟩
  cases m.memory.slot? (m.height - 1) <;> exact ⟨rfl, rfl⟩

theorem silent_swapTop : Silent swapTop := by
  intro m
  rw [wp_swapTop]
  exact ⟨fun _ => ⟨rfl, rfl⟩, fun _ _ => ⟨rfl, rfl⟩, fun _ _ => ⟨rfl, rfl⟩⟩

theorem silent_jump (target : Int64) : Silent (jump target) := by
  intro m
  rw [wp_jump]
  exact ⟨fun _ => ⟨rfl, rfl⟩, fun _ => ⟨rfl, rfl⟩⟩

theorem silent_call (target : Int64) : Silent (call target) := by
  intro m
  unfold call
  rw [wp_bind, wp_checkTarget]
  exact ⟨fun _ => ⟨rfl, rfl⟩, fun _ => ⟨rfl, rfl⟩⟩

theorem silent_setRegister (r : Register) (v : Value) : Silent (setRegister r v) := by
  intro m
  by_cases hpc : r = .pc
  · subst hpc
    cases v with
    | int target => exact silent_jump target m
    | bytes b => exact ⟨rfl, rfl⟩
  by_cases hsp : r = .sp
  · subst hsp
    cases v with
    | int sp =>
      rw [wp_setRegister_sp_int]
      exact ⟨fun _ => ⟨rfl, rfl⟩, fun _ => ⟨rfl, rfl⟩⟩
    | bytes b => exact ⟨rfl, rfl⟩
  rw [wp_setRegister_of_ne hpc hsp]
  cases m.registers.set? r v <;> exact ⟨rfl, rfl⟩

/-- An instruction keeps what its lines on the output and its entries in the journal
    leave true. -/
theorem keeps_execute {i : Instruction}
    (hwrite : ∀ {s j} bytes, i.prints → P s j → P (s.write bytes) j)
    (hstored : ∀ {s j} slot v, P s j → P s (j.add (.stored slot v)))
    (hset : ∀ {s j} on, P s j → P s (j.add (.tracingSet on))) :
    Keeps (fun m => P m.output m.journal) (fun _ => True) (execute i) := by
  refine Closed.execute ?_
  exact {
    fault := fun _ => trivial
    live := fun _ _ => .inr trivial
    pop := fun op => (silent_pop op).keeps
    push := fun v m hm => by
      rw [wp_push]
      exact ⟨fun _ => hstored _ v hm, fun _ => ⟨trivial, hm⟩⟩
    swap := silent_swapTop.keeps
    write := fun r _ v => (silent_setRegister r v).keeps
    jump := fun _ target => (silent_jump target).keeps
    call := fun target _ => (silent_call target).keeps
    print := fun hi line m hm => by
      rw [wp_printLine]
      exact ⟨fun _ => hwrite _ hi hm, fun _ => ⟨trivial, hwrite _ hi hm⟩⟩
    flag := fun _ _ hm => hm
    trace := Keeps.modify fun m hm => hset _ hm }

/-! ### Fetching and recording -/

theorem wp_fetch {Q : α → Machine → Prop} {T : Trap → Machine → Prop} (reading : Fetch α)
    (m : Machine) :
    wp (fetch reading) Q T m ↔
      match reading m.memory m.registers.pc with
      | .ok a pc => Q a (m.goTo pc m.journal)
      | .error f pc => T (.malformed f) (m.goTo pc m.journal) := by
  unfold wp fetch
  cases reading m.memory m.registers.pc <;> rfl

theorem wp_record {R : Unit → Machine → Prop} {T : Trap → Machine → Prop} (level : Level)
    (event : Snapshot → Event) (m : Machine) :
    wp (record level event) R T m ↔
      if m.journal.keeps level then
        match m.snapshot? with
        | none => T .outOfBounds m
        | some s => R () { m with journal := m.journal.add (event s) }
      else R () m := by
  unfold wp record
  by_cases hkeeps : m.journal.keeps level = true
  · rw [if_pos hkeeps, if_pos hkeeps]
    cases m.snapshot? <;> rfl
  · rw [if_neg hkeeps, if_neg hkeeps]

theorem silent_fetch (reading : Fetch α) : Silent (fetch reading) := by
  intro m
  rw [wp_fetch]
  cases reading m.memory m.registers.pc <;> exact ⟨rfl, rfl⟩

theorem keeps_record {level : Level} {event : Snapshot → Event}
    (hadd : ∀ {s j} snapshot, P s j → P s (j.add (event snapshot))) :
    Keeps (fun m => P m.output m.journal) (fun _ => True) (record level event) := by
  intro m hm
  rw [wp_record]
  split
  · cases m.snapshot? with
    | none => exact ⟨trivial, hm⟩
    | some snapshot => exact hadd snapshot hm
  · exact hm

end Action

/-! ## Steps and runs -/

namespace Machine

variable {program : Bytes} {capacity : Nat} {m : Machine} {P : Sink → Prop}
  (hsize : program.length < 2 ^ 63) (hcap : capacity < 2 ^ 63)
  (hwrite : ∀ {s} bytes, P s → P (s.write bytes))
include hsize hcap hwrite

theorem Bounded.output_step (hm : m.Bounded program capacity) (h : P m.output) :
    P (m.after .step).output := by
  have hexecute (i : Instruction) (pc : Int64) (journal : Journal) :=
    Action.keeps_execute (i := i) (P := fun s _ => P s) (fun bytes _ => hwrite bytes) (fun _ _ => id)
      (fun _ => id) (m.goTo pc journal) h
  obtain ⟨code, hexit⟩ | ⟨hexit, f, hfault⟩ | ⟨hexit, hfault, hterm⟩ | ⟨hready, hgo⟩ := hm.cases
  · rwa [after_step_of_eq_ok (step_of_exitCode hexit)]
  · rwa [after_step_of_eq_ok (step_of_fault hexit hfault)]
  · rwa [after_step_of_eq_ok (step_of_terminating hexit hfault hterm)]
  · have hcycles := hready.cycles hsize hcap hgo
    unfold Machine.after
    generalize m.step = r at hcycles
    cases hcycles with
    | malformed decoded => exact h
    | halted decoded executed =>
      have hkept := (hexecute _ _ _).of_eq_ok executed
      exact hkept
    | ran decoded executed => exact (hexecute _ _ _).of_eq_ok executed
    | faulted decoded executed =>
      have hkept := (hexecute _ _ _).of_eq_error executed
      exact hkept.2

theorem Bounded.output_afterSteps (hm : m.Bounded program capacity) (h : P m.output) (k : Nat) :
    P (m.afterSteps k).output := by
  induction k with
  | zero => exact h
  | succ k ih =>
    rw [afterSteps_succ]
    exact (hm.afterSteps hsize hcap k).output_step hsize hcap hwrite ih

theorem Bounded.output_run (hm : m.Bounded program capacity) (h : P m.output) (bound : Nat) :
    P (leftBy (m.run bound)).output := by
  induction bound generalizing m with
  | zero => exact h
  | succ bound ih =>
    have hnext := hm.after hsize hcap .step
    have hkept := hm.output_step hsize hcap hwrite h
    rw [run_succ]
    unfold Machine.after at hnext hkept
    cases hstep : m.step with
    | error a m' =>
      rw [hstep] at hkept
      exact hkept
    | ok status m' =>
      rw [hstep] at hnext hkept
      cases status with
      | running => exact ih hnext hkept
      | halted code => exact hkept
      | faulted => exact hwrite _ hkept

omit hwrite

/-- Steps only add to the output. -/
theorem Bounded.isPrefix_afterSteps (hm : m.Bounded program capacity) {j k : Nat} (hle : j ≤ k) :
    (m.afterSteps j).output.bytes <+: (m.afterSteps k).output.bytes := by
  obtain ⟨l, rfl⟩ := Nat.exists_eq_add_of_le hle
  rw [afterSteps_add]
  exact (hm.afterSteps hsize hcap j).output_afterSteps hsize hcap
    (P := fun s => (m.afterSteps j).output.bytes <+: s.bytes)
    (fun bytes h => h.trans (Sink.isPrefix_write _ bytes)) List.prefix_rfl l

/-- A run only adds to the output. -/
theorem Bounded.isPrefix_run (hm : m.Bounded program capacity) (bound : Nat) :
    m.output.bytes <+: (leftBy (m.run bound)).output.bytes :=
  hm.output_run hsize hcap (P := fun s => m.output.bytes <+: s.bytes)
    (fun bytes h => h.trans (Sink.isPrefix_write _ bytes)) List.prefix_rfl bound

end Machine

end StackMachine
