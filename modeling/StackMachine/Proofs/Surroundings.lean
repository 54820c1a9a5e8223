-- SUMMARY: Runs between whose steps the surroundings change, and the offsets of the instructions that they execute.
import StackMachine.Proofs.TraceLines

/-!
# Surroundings

While a machine runs, others may ask it to stop, or write to its sink. It notices
before the next step. `Machine.runAmid` is a run that takes each of its steps in
surroundings of their own; a run in which nothing changes is one of these.
`Machine.offsetsAmid` lists the offsets of the instructions that the steps execute.
-/

namespace StackMachine

/-- What a machine finds before one of its steps: whether it is asked to stop, and the
    sink behind its output. -/
structure Surroundings where
  terminating : Bool
  output : Sink

namespace Machine

variable {program : Bytes} {capacity : Nat} {m : Machine}

/-- The machine in other surroundings. -/
def amid (m : Machine) (s : Surroundings) : Machine :=
  { m with terminating := s.terminating, output := s.output }

theorem Bounded.amid (h : m.Bounded program capacity) (s : Surroundings) :
    (m.amid s).Bounded program capacity :=
  ⟨{ h.toInBounds with }, h.ended⟩

/-! ## Runs -/

/-- Run, with one step at most in each of the surroundings. -/
def runAmid (m : Machine) : List Surroundings → EStateM.Result Abort Machine (Option UInt8)
  | [] => .ok none m
  | s :: rest =>
    match (m.amid s).run 1 with
    | .ok none m' => m'.runAmid rest
    | r => r

/-- A run goes on after a step if that leaves the machine running. -/
theorem run_succ_eq_run_one (m : Machine) (bound : Nat) :
    m.run (bound + 1) =
      match m.run 1 with
      | .ok none m' => m'.run bound
      | r => r := by
  rw [run_succ, run_succ]
  cases m.step with
  | error a m' => rfl
  | ok status m' => cases status <;> rfl

/-- A run is one in surroundings that are as it left them. -/
theorem exists_runAmid_eq_run (m : Machine) (bound : Nat) :
    ∃ surroundings : List Surroundings, surroundings.length = bound ∧
      m.runAmid surroundings = m.run bound := by
  induction bound generalizing m with
  | zero => exact ⟨[], rfl, rfl⟩
  | succ bound ih =>
    obtain ⟨rest, hlength, hrest⟩ := ih (leftBy (m.run 1))
    refine ⟨⟨m.terminating, m.output⟩ :: rest, congrArg (· + 1) hlength, ?_⟩
    rw [run_succ_eq_run_one, runAmid]
    change (match m.run 1 with | .ok none m' => m'.runAmid rest | r => r) = _
    cases hone : m.run 1 with
    | error a m' => rfl
    | ok code m' =>
      cases code with
      | some code => rfl
      | none =>
        rw [hone] at hrest
        exact hrest

/-- A run of one step returns, or the step leaves the machine running. -/
theorem run_one_cases (m : Machine) :
    (∃ r, m.run 1 = outcome r) ∨
    (m.run 1 = .ok none (m.after .step) ∧ m.step = .ok .running (m.after .step)) := by
  rw [run_succ]
  unfold after
  cases m.step with
  | error a m' => exact .inl ⟨.error a m', rfl⟩
  | ok status m' =>
    cases status with
    | running => exact .inr ⟨rfl, rfl⟩
    | halted code => exact .inl ⟨.ok code _, rfl⟩
    | faulted => exact .inl ⟨.ok 1 _, rfl⟩

variable {s : Surroundings} {rest : List Surroundings}

theorem runAmid_cons_of_outcome {r : EStateM.Result Abort Machine UInt8}
    (h : (m.amid s).run 1 = outcome r) : m.runAmid (s :: rest) = outcome r := by
  rw [runAmid, h]
  cases r <;> rfl

theorem runAmid_cons_of_running (h : (m.amid s).run 1 = .ok none ((m.amid s).after .step)) :
    m.runAmid (s :: rest) = ((m.amid s).after .step).runAmid rest := by
  rw [runAmid, h]

/-! ## Executed instructions -/

/-- The offset of the instruction that the next step executes, if it executes one. -/
def executed? (m : Machine) : Option Int :=
  if m.isGoing then
    match Fetch.decode m.memory m.registers.pc with
    | .ok _ _ => some m.registers.pc.toInt
    | .error _ _ => none
  else none

theorem isGoing_iff :
    m.isGoing = true ↔ m.fault = none ∧ m.exitCode = none ∧ m.terminating = false := by
  simp only [isGoing, Bool.and_eq_true, Option.isNone_iff_eq_none, Bool.not_eq_true']
  tauto

theorem executed?_eq_some_iff {offset : Int} :
    m.executed? = some offset ↔ (∃ i, m.Executes i) ∧ m.registers.pc.toInt = offset := by
  unfold executed? Executes
  by_cases hgo : m.isGoing = true
  · rw [if_pos hgo]
    obtain ⟨hfault, hexit, hterm⟩ := isGoing_iff.1 hgo
    cases hdecoded : Fetch.decode m.memory m.registers.pc with
    | ok i pc => simp [hfault, hexit, hterm]
    | error f pc => simp
  · rw [if_neg hgo]
    rw [isGoing_iff] at hgo
    simp only [reduceCtorEq, false_iff, not_and]
    rintro ⟨i, hfault, hexit, hterm, -⟩
    exact absurd ⟨hfault, hexit, hterm⟩ hgo

/-- The offsets of the instructions that steps in the surroundings execute, in their
    order. -/
def offsetsAmid (m : Machine) : List Surroundings → List Int
  | [] => []
  | s :: rest => (m.amid s).executed?.toList ++ ((m.amid s).after .step).offsetsAmid rest

end Machine

end StackMachine
