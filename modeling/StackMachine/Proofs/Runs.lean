-- SUMMARY: What a run returns, that it goes on where single steps stopped, and that an ended machine stays as it is.
import StackMachine.Proofs.Reachability

/-!
# Runs

`Machine.RunsTo` says what a run returns, with whatever bound it gets there. A run
takes steps until one leaves the machine ended, so it does not matter how many of
them were taken one by one before it: `Machine.runsTo_iff_of_step` is the step and
`Machine.runsTo_afterSteps` any number of them. A machine that has halted or
faulted stays so, whatever calls it gets.
-/

namespace StackMachine

namespace Sink

/-- The bytes that still fit. -/
def fitting (sink : Sink) (bytes : Bytes) : Bytes :=
  match sink.limit with
  | none => bytes
  | some limit => bytes.take (limit - sink.bytes.length)

theorem bytes_write (sink : Sink) (bytes : Bytes) :
    (sink.write bytes).bytes = sink.bytes ++ sink.fitting bytes := by
  unfold fitting
  cases hlimit : sink.limit with
  | none => exact bytes_write_of_unlimited hlimit bytes
  | some limit => exact bytes_write_of_limit hlimit bytes

end Sink

namespace Machine

variable {program : Bytes} {config : Config} {capacity : Nat} {m m' : Machine}

/-! ## Steps and calls one after the other -/

/-- What an action returns, without the machine that it leaves. -/
def returned : EStateM.Result Abort Machine α → Except Abort α
  | .ok a _ => .ok a
  | .error e _ => .error e

/-- The machine after so many steps, whatever they return. -/
def afterSteps : Machine → Nat → Machine
  | m, 0 => m
  | m, n + 1 => (m.after .step).afterSteps n

/-- What so many steps return, the first one first. -/
def replies : Machine → Nat → List (Except Abort Status)
  | _, 0 => []
  | m, n + 1 => returned m.step :: (m.after .step).replies n

/-- The machine after all of the calls. -/
def afterAll (m : Machine) (calls : List Call) : Machine :=
  calls.foldl after m

/-- More steps go on where the first ones led. -/
theorem afterSteps_add (m : Machine) (k l : Nat) :
    m.afterSteps (k + l) = (m.afterSteps k).afterSteps l := by
  induction k generalizing m with
  | zero => rw [Nat.zero_add, afterSteps]
  | succ k ih => rw [Nat.add_right_comm, afterSteps, afterSteps, ih]

theorem afterSteps_succ (m : Machine) (k : Nat) :
    m.afterSteps (k + 1) = (m.afterSteps k).after .step :=
  afterSteps_add m k 1

theorem replies_succ (m : Machine) (k : Nat) :
    m.replies (k + 1) = m.replies k ++ [returned (m.afterSteps k).step] := by
  induction k generalizing m with
  | zero => rfl
  | succ k ih => rw [replies, ih, replies, afterSteps, List.cons_append]

/-- Steps return what each of them returns from where the ones before it led. -/
theorem mem_replies_iff {m : Machine} {n : Nat} {reply : Except Abort Status} :
    reply ∈ m.replies n ↔ ∃ k < n, reply = returned (m.afterSteps k).step := by
  induction n with
  | zero => exact ⟨nofun, fun ⟨_, hk, _⟩ => absurd hk (Nat.not_lt_zero _)⟩
  | succ n ih =>
    rw [replies_succ, List.mem_append, ih, List.mem_singleton]
    constructor
    · rintro (⟨k, hk, hreply⟩ | hreply)
      · exact ⟨k, Nat.lt_succ_of_lt hk, hreply⟩
      · exact ⟨n, Nat.lt_succ_self n, hreply⟩
    · rintro ⟨k, hk, hreply⟩
      obtain hlt | rfl := Nat.lt_succ_iff_lt_or_eq.1 hk
      · exact .inl ⟨k, hlt, hreply⟩
      · exact .inr hreply

theorem Reachable.afterSteps (h : Reachable program config m) (n : Nat) :
    Reachable program config (m.afterSteps n) := by
  induction n generalizing m with
  | zero => exact h
  | succ n ih => exact ih (.after .step h)

theorem Reachable.afterAll (h : Reachable program config m) (calls : List Call) :
    Reachable program config (m.afterAll calls) := by
  induction calls generalizing m with
  | nil => exact h
  | cons c calls ih => exact ih (.after c h)

theorem after_step_of_eq_ok {status : Status} (h : m.step = .ok status m') :
    m.after .step = m' := by
  rw [after, h, leftBy]

/-! ## What a run returns -/

/-- The outcome of a run that its bound does not cut short. -/
def outcome : EStateM.Result Abort Machine UInt8 → EStateM.Result Abort Machine (Option UInt8)
  | .ok code m => .ok (some code) m
  | .error a m => .error a m

/-- A run of the machine returns the exit code, or stops for the reason, and leaves
    the machine that `r` says. -/
def RunsTo (m : Machine) (r : EStateM.Result Abort Machine UInt8) : Prop :=
  ∃ bound, m.run bound = outcome r

variable {r r' : EStateM.Result Abort Machine UInt8}

theorem run_zero_ne : m.run 0 ≠ outcome r := by
  cases r <;> exact nofun

theorem outcome_injective (h : outcome r = outcome r') : r = r' := by
  cases r <;> cases r' <;> cases h <;> rfl

theorem run_succ (m : Machine) (bound : Nat) :
    m.run (bound + 1) =
      match m.step with
      | .ok .running m' => m'.run bound
      | .ok (.halted code) m' =>
        .ok (some code) { m' with journal := m'.journal.add (.halted code) }
      | .ok .faulted m' =>
        .ok (some 1) { m' with output := m'.output.write (Utf8.encode m'.faultLine) }
      | .error a m' => .error a m' := by
  change (step >>= _ : EStateM Abort Machine (Option UInt8)) m = _
  simp only [Bind.bind, EStateM.bind]
  cases m.step with
  | error a m' => rfl
  | ok status m' => cases status <;> rfl

/-- A higher bound makes no difference to a run that has returned. -/
theorem run_add_of_eq {bound : Nat} (h : m.run bound = outcome r) (extra : Nat) :
    m.run (bound + extra) = outcome r := by
  induction bound generalizing m with
  | zero => exact absurd h run_zero_ne
  | succ bound ih =>
    rw [Nat.add_right_comm, run_succ] at *
    cases hstep : m.step with
    | error a m' => simpa only [hstep] using h
    | ok status m' =>
      rw [hstep] at h
      cases status with
      | running => exact ih h
      | halted code => exact h
      | faulted => exact h

/-- A run returns one thing at most. -/
theorem RunsTo.unique (h : m.RunsTo r) (h' : m.RunsTo r') : r = r' := by
  obtain ⟨bound, hr⟩ := h
  obtain ⟨bound', hr'⟩ := h'
  have hsum := run_add_of_eq hr bound'
  rw [Nat.add_comm, run_add_of_eq hr' bound] at hsum
  exact (outcome_injective hsum).symm

/-- The line that a run writes about a fault. -/
def errorLine (f : Fault) : Bytes :=
  Utf8.encode ("Error: ".toList ++ f.message ++ ['\n'])

theorem encode_faultLine {f : Fault} (h : m.fault = some f) :
    Utf8.encode m.faultLine = errorLine f := by
  have hline : m.faultLine = "Error: ".toList ++ f.message ++ ['\n'] := by
    unfold faultLine
    rw [h, Option.elim_some]
  unfold errorLine
  rw [hline]

/-! ## Ended machines -/

/-- How the machine has ended, if it has. -/
def ending? (m : Machine) : Option Status :=
  match m.exitCode, m.fault with
  | some code, _ => some (.halted code)
  | none, some _ => some .faulted
  | none, none => none

variable {status : Status}

theorem step_of_ending (h : m.ending? = some status) : m.step = .ok status m := by
  unfold ending? at h
  cases hexit : m.exitCode with
  | some code =>
    simp only [hexit, Option.some.injEq] at h
    rw [step_of_exitCode hexit, h]
  | none =>
    cases hfault : m.fault with
    | some f =>
      simp only [hexit, hfault, Option.some.injEq] at h
      rw [step_of_fault hexit hfault, h]
    | none => simp [hexit, hfault] at h

theorem exists_fault_of_ending (h : m.ending? = some .faulted) : ∃ f, m.fault = some f := by
  unfold ending? at h
  split at h
  · cases h
  · exact ⟨_, ‹_›⟩
  · cases h

theorem Bounded.ending_of_fault {f : Fault} (hm : m.Bounded program capacity)
    (h : m.fault = some f) : m.ending? = some .faulted := by
  obtain hnone | hexit := hm.ended
  · cases hnone.symm.trans h
  · simp [ending?, hexit, h]

theorem exists_of_afterRecord_eq_ok {event : Snapshot → Event}
    {go : Machine → EStateM.Result Abort Machine Status}
    (h : m.afterRecord event go = .ok status m') : ∃ n, go n = .ok status m' := by
  unfold afterRecord at h
  split at h
  · exact ⟨_, h⟩
  · cases h

theorem ending_ne_running : m.ending? ≠ some .running := by
  unfold ending?
  cases m.exitCode with
  | some code => exact nofun
  | none => cases m.fault <;> exact nofun

/-- A step that does not leave the machine running leaves it ended. -/
theorem ending_of_step (h : m.step = .ok status m') (hne : status ≠ .running) :
    m'.ending? = some status := by
  unfold step at h
  cases hexit : m.exitCode with
  | some code =>
    rw [hexit] at h
    cases h
    simp [ending?, hexit]
  | none =>
    cases hfault : m.fault with
    | some f =>
      rw [hexit, hfault] at h
      cases h
      simp [ending?, hexit, hfault]
    | none =>
      simp only [hexit, hfault] at h
      split at h
      · cases h
        rfl
      · split at h
        · cases h
          exact absurd rfl hne
        · cases h
          rfl
        · obtain ⟨n, hn⟩ := exists_of_afterRecord_eq_ok h
          cases hn
          exact absurd rfl hne
        · obtain ⟨n, hn⟩ := exists_of_afterRecord_eq_ok h
          cases hn
        · cases h

theorem afterSteps_of_ending (h : m.ending? = some status) (k : Nat) : m.afterSteps k = m := by
  induction k with
  | zero => rfl
  | succ k ih => rw [afterSteps_succ, ih, after_step_of_eq_ok (step_of_ending h)]

/-! ## Steps up to the end -/

theorem steps_succ (count : Nat) (m : Machine) :
    steps (count + 1) m =
      match m.step with
      | .ok .running m' => steps count m'
      | r => r := by
  change (step >>= _ : EStateM Abort Machine Status) m = _
  simp only [Bind.bind, EStateM.bind]
  cases m.step with
  | error a m' => rfl
  | ok status m' => cases status <;> rfl

/-- A run takes steps up to the end, and reports how they ended. -/
theorem run_eq_steps (m : Machine) (bound : Nat) :
    m.run bound =
      match steps bound m with
      | .ok .running m' => .ok none m'
      | .ok (.halted code) m' =>
        .ok (some code) { m' with journal := m'.journal.add (.halted code) }
      | .ok .faulted m' =>
        .ok (some 1) { m' with output := m'.output.write (Utf8.encode m'.faultLine) }
      | .error a m' => .error a m' := by
  induction bound generalizing m with
  | zero => rfl
  | succ bound ih =>
    rw [run_succ, steps_succ]
    cases m.step with
    | error a m' => rfl
    | ok status m' =>
      cases status with
      | running => exact ih m'
      | halted code => rfl
      | faulted => rfl

/-- Steps up to the end leave the machine that so many single steps leave. -/
theorem afterSteps_of_steps {count : Nat} (h : steps count m = .ok status m') :
    m.afterSteps count = m' := by
  induction count generalizing m with
  | zero =>
    cases h
    rfl
  | succ count ih =>
    rw [steps_succ] at h
    cases hstep : m.step with
    | error a n =>
      rw [hstep] at h
      cases h
    | ok status' n =>
      rw [hstep] at h
      rw [afterSteps, after_step_of_eq_ok hstep]
      by_cases hne : status' = .running
      · subst hne
        exact ih h
      · -- The machine has ended, so that the steps which are left change nothing.
        rw [afterSteps_of_ending (ending_of_step hstep hne)]
        cases status' with
        | running => exact absurd rfl hne
        | halted code => cases h; rfl
        | faulted => cases h; rfl

/-! ## Runs of ended machines -/

theorem run_of_halted {code : UInt8} (h : m.ending? = some (.halted code)) (bound : Nat) :
    m.run (bound + 1) = .ok (some code) { m with journal := m.journal.add (.halted code) } := by
  rw [run_succ, step_of_ending h]

theorem run_of_faulted (h : m.ending? = some .faulted) (bound : Nat) :
    m.run (bound + 1) =
      .ok (some 1) { m with output := m.output.write (Utf8.encode m.faultLine) } := by
  rw [run_succ, step_of_ending h]

/-- No call makes an ended machine another one, but for the request to stop, the
    output and the journal. -/
theorem after_of_ending (h : m.ending? = some status) (c : Call) :
    ∃ on output journal,
      m.after c = { m with terminating := on, output := output, journal := journal } := by
  cases c with
  | step => exact ⟨_, _, _, after_step_of_eq_ok (step_of_ending h)⟩
  | terminate on => exact ⟨on, _, _, rfl⟩
  | output sink => exact ⟨_, sink, _, rfl⟩
  | run bound =>
    cases bound with
    | zero => exact ⟨_, _, _, rfl⟩
    | succ bound =>
      cases status with
      | running => exact absurd h ending_ne_running
      | halted code =>
        rw [after, run_of_halted h]
        exact ⟨_, _, _, rfl⟩
      | faulted =>
        rw [after, run_of_faulted h]
        exact ⟨_, _, _, rfl⟩

theorem afterAll_of_ending (h : m.ending? = some status) (calls : List Call) :
    (m.afterAll calls).ending? = some status ∧ (m.afterAll calls).fault = m.fault := by
  induction calls generalizing m with
  | nil => exact ⟨h, rfl⟩
  | cons c calls ih =>
    obtain ⟨on, output, journal, hafter⟩ := after_of_ending h c
    change ((m.after c).afterAll calls).ending? = _ ∧ ((m.after c).afterAll calls).fault = _
    rw [hafter]
    exact ih h

/-! ## Runs after steps -/

/-- A run goes on where a step stopped, and returns the same if that step was taken
    by the run itself. -/
theorem runsTo_iff_of_step (h : m.step = .ok status m') : m'.RunsTo r ↔ m.RunsTo r := by
  -- The first step of a run that has returned is the one that was taken.
  have hrun : m.RunsTo r ↔ ∃ bound, m.run (bound + 1) = outcome r := by
    refine ⟨?_, fun ⟨bound, hr⟩ => ⟨bound + 1, hr⟩⟩
    rintro ⟨bound, hr⟩
    exact ⟨bound, run_add_of_eq hr 1⟩
  rw [hrun]
  by_cases hne : status = .running
  · subst hne
    have hbound (bound : Nat) : m.run (bound + 1) = m'.run bound := by rw [run_succ, h]
    simp only [hbound]
    rfl
  · -- A step of a machine that has just ended finds the same, so that a run does too.
    have hended := ending_of_step h hne
    have hbound (bound : Nat) : m.run (bound + 1) = m'.run (bound + 1) := by
      rw [run_succ, run_succ, h, step_of_ending hended]
    simp only [hbound]
    refine ⟨?_, fun ⟨bound, hr⟩ => ⟨bound + 1, hr⟩⟩
    rintro ⟨bound, hr⟩
    exact ⟨bound, run_add_of_eq hr 1⟩

theorem runsTo_afterSteps (n : Nat)
    (h : ∀ reply ∈ m.replies n, ∃ status, reply = .ok status) :
    (m.afterSteps n).RunsTo r ↔ m.RunsTo r := by
  induction n generalizing m with
  | zero => exact Iff.rfl
  | succ n ih =>
    obtain ⟨hfirst, hrest⟩ := List.forall_mem_cons.1 h
    obtain ⟨status, hstatus⟩ := hfirst
    cases hstep : m.step with
    | error a m' =>
      rw [hstep] at hstatus
      cases hstatus
    | ok status m' =>
      rw [after_step_of_eq_ok hstep] at hrest
      rw [afterSteps, after_step_of_eq_ok hstep, ih hrest, runsTo_iff_of_step hstep]

section Sizes

variable (hsize : program.length < 2 ^ 63)
include hsize

theorem Bounded.afterSteps (hcap : capacity < 2 ^ 63) (hm : m.Bounded program capacity)
    (k : Nat) : (m.afterSteps k).Bounded program capacity := by
  induction k with
  | zero => exact hm
  | succ k ih =>
    rw [afterSteps_succ]
    exact ih.after hsize hcap .step

/-- Single steps return a status or a malformation. -/
theorem Bounded.cases_of_mem_replies (hcap : capacity < 2 ^ 63) {n : Nat}
    {reply : Except Abort Status} (hm : m.Bounded program capacity) (h : reply ∈ m.replies n) :
    (∃ status, reply = .ok status) ∨ ∃ f, reply = .error (.malformed f) := by
  induction n generalizing m with
  | zero => cases h
  | succ n ih =>
    obtain rfl | hrest := List.mem_cons.1 h
    · have hsecure := hm.secure_step hsize hcap
      cases hstep : m.step with
      | ok status m' => exact .inl ⟨status, rfl⟩
      | error a m' =>
        rw [hstep] at hsecure
        obtain ⟨⟨f, rfl⟩, -⟩ := hsecure
        exact .inr ⟨f, rfl⟩
    · exact ih (hm.after hsize hcap .step) hrest

/-- A fault that an instruction ends in is recorded by a step after which the machine
    is still said to be running. -/
theorem Bounded.step_records_fault (hcap : capacity < 2 ^ 63) (hm : m.Bounded program capacity)
    {f : Fault} (hnone : m.fault = none) (hgo : m.terminating = false)
    (hfault : (m.after .step).fault = some f) :
    m.step = .ok .running (m.after .step) ∧ (m.after .step).ending? = some .faulted := by
  obtain ⟨code, hexit⟩ | ⟨-, f', hsome⟩ | ⟨-, -, hterm⟩ | ⟨hready, -⟩ := hm.cases
  · rw [after_step_of_eq_ok (step_of_exitCode hexit), hnone] at hfault
    cases hfault
  · cases hnone.symm.trans hsome
  · cases hgo.symm.trans hterm
  have hcycles := hready.cycles hsize hcap hgo
  unfold Machine.after at hfault ⊢
  generalize m.step = r at hcycles hfault
  cases hcycles with
  | malformed decoded => cases hnone.symm.trans hfault
  | halted decoded executed =>
    cases (hready.of_execute_eq_ok hsize hcap decoded executed).fault.symm.trans hfault
  | ran decoded executed =>
    cases (hready.of_execute_eq_ok hsize hcap decoded executed).fault.symm.trans hfault
  | faulted decoded executed =>
    have hexit := (hready.of_execute_eq_error hsize hcap decoded executed).exitCode
    exact ⟨rfl, by simp [leftBy, ending?, hexit]⟩

/-- Single steps and runs compose, in every state that a machine can get into; a
    machine that was just set up, with any sink and with or without the request to
    stop, is one of them. After any number of steps without a malformation a run
    returns what it returns without these steps, and leaves the same machine. Once a
    step has returned that the machine has halted or faulted, whatever calls follow,
    a step returns the same and changes nothing at all. A run then returns the exit
    code and writes nothing, or it returns 1 and writes the line of the fault, as
    much of it as the sink takes. A step that records the fault of an instruction
    returns that the machine is running, and the next one that it has faulted. -/
theorem steps_and_runs_compose (hstack : config.stackSize < 2 ^ 63)
    (h : Reachable program config m) :
    (∀ n, (∀ f, .error (.malformed f) ∉ m.replies n) →
      ∀ r, (m.afterSteps n).RunsTo r ↔ m.RunsTo r) ∧
    (∀ status m', m.step = .ok status m' → status ≠ .running → ∀ calls,
      let e := m'.afterAll calls
      e.step = .ok status e ∧
      (∀ code, status = .halted code →
        e.RunsTo (.ok code { e with journal := e.journal.add (.halted code) })) ∧
      (status = .faulted → ∃ f, m'.fault = some f ∧
        e.RunsTo (.ok 1 { e with output := e.output.write (errorLine f) }) ∧
        (e.output.write (errorLine f)).bytes =
          e.output.bytes ++ e.output.fitting (errorLine f))) ∧
    ∀ f, m.fault = none → m.terminating = false → (m.after .step).fault = some f →
      m.step = .ok .running (m.after .step) ∧
      (m.after .step).step = .ok .faulted (m.after .step) := by
  have hm := h.bounded hsize hstack
  refine ⟨fun n hn r => ?_, ?_, fun f hnone hgo hfault => ?_⟩
  · refine runsTo_afterSteps n fun reply hreply => ?_
    obtain hstatus | ⟨f, rfl⟩ := hm.cases_of_mem_replies hsize hstack hreply
    · exact hstatus
    · exact absurd hreply (hn f)
  · intro status m' hstep hne calls e
    obtain ⟨hending, hfault⟩ := afterAll_of_ending (ending_of_step hstep hne) calls
    refine ⟨step_of_ending hending, ?_, ?_⟩
    · rintro code rfl
      exact ⟨1, run_of_halted hending 0⟩
    · rintro rfl
      obtain ⟨f, hf⟩ := exists_fault_of_ending hending
      refine ⟨f, hfault.symm.trans hf, ⟨1, ?_⟩, Sink.bytes_write _ _⟩
      rw [run_of_faulted hending 0, encode_faultLine hf]
      rfl
  · obtain ⟨hstep, hending⟩ := hm.step_records_fault hsize hstack hnone hgo hfault
    exact ⟨hstep, step_of_ending hending⟩

end Sizes

/-- A pop from an empty stack, a request to stop and a run on a sink that takes three
    bytes: the line of the fault is cut, and the machine stays faulted. -/
theorem steps_and_runs_compose_after_underflow :
    let m := ofProgram [Opcode.pop.byte] { stackSize := 1, outputLimit := some 3 }
    let e := (m.after .step).afterAll [.terminate true, .run 1, .step]
    m.step = .ok .running (m.after .step) ∧
    (m.after .step).step = .ok .faulted (m.after .step) ∧
    e.step = .ok .faulted e ∧ e.output.bytes = [69, 114, 114] ∧
    e.RunsTo (.ok 1 { e with output := e.output.write (errorLine (.stackUnderflow .pop)) }) ∧
    ∀ r, (m.afterSteps 2).RunsTo r ↔ m.RunsTo r := by
  intro m e
  have hm : Reachable [Opcode.pop.byte] { stackSize := 1, outputLimit := some 3 } m := .fresh
  have hfault : (m.after .step).fault = some (.stackUnderflow .pop) := by decide
  obtain ⟨hcompose, -, hrecords⟩ := steps_and_runs_compose (by decide) (by decide) hm
  obtain ⟨hrunning, hfaulted⟩ := hrecords _ rfl rfl hfault
  obtain ⟨-, hfinal, -⟩ := steps_and_runs_compose (by decide) (by decide) (.after .step hm)
  obtain ⟨hstep, -, hrun⟩ := hfinal _ _ hfaulted nofun [.terminate true, .run 1, .step]
  obtain ⟨f, hf, hruns, -⟩ := hrun rfl
  cases hfault.symm.trans hf
  have hreplies : m.replies 2 = [.ok .running, .ok .faulted] := by decide
  refine ⟨hrunning, hfaulted, hstep, by decide, hruns, hcompose 2 ?_⟩
  intro f
  simp [hreplies]

end Machine

end StackMachine
