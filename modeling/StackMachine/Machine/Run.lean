-- SUMMARY: Single steps and whole runs.
import StackMachine.Machine.Execute

/-!
# Running

A step executes one instruction. A fault is recorded in the machine and ends
the program at the next step; a halted or faulted machine stays as it is. A run
takes steps until the program has halted or faulted, and reports a fault on the
output.
-/

namespace StackMachine

/-- How a machine stands after a step. -/
inductive Status where
  | running
  | faulted
  | halted (code : UInt8)
  deriving DecidableEq, Repr

/-- Why a step has no status. -/
inductive Abort where
  | malformed (f : Malformation)
  /-- An access outside the stack. -/
  | outOfBounds
  deriving DecidableEq, Repr

namespace Action

/-- Fetch and execute one instruction. -/
def cycle : Action (Option UInt8) := do
  let address := (← get).registers.pc
  let op ← fetch Fetch.opcode
  record .debug (.fetched op)
  if (← get).tracing then record .info (.traced address op)
  let instruction ← fetch (Fetch.instruction op)
  execute instruction

end Action

namespace Machine

/-- Record an event of the level `error` that shows the state, then go on. -/
def afterRecord (m : Machine) (event : Snapshot → Event)
    (go : Machine → EStateM.Result Abort Machine Status) : EStateM.Result Abort Machine Status :=
  match Action.record .error event m with
  | .ok () m => go m
  | .error _ m => .error .outOfBounds m

/-- Take one step, unless the program has ended or the machine is asked to
    stop. -/
def step : EStateM Abort Machine Status := fun m =>
  match m.exitCode, m.fault with
  | some code, _ => .ok (.halted code) m
  | none, some _ => .ok .faulted m
  | none, none =>
    if m.terminating then
      .ok .faulted { m with
        fault := some .terminated
        journal := m.journal.add .terminating }
    else
      match Action.cycle m with
      | .ok none m => .ok .running m
      | .ok (some code) m => .ok (.halted code) { m with exitCode := some code }
      | .error (.fault f) m =>
        m.afterRecord (.faulted f) fun m => .ok .running { m with fault := some f }
      | .error (.malformed f) m =>
        m.afterRecord (.malformed f) fun m => .error (.malformed f) m
      | .error .outOfBounds m => .error .outOfBounds m

/-- The line that reports the fault of a program. -/
def faultLine (m : Machine) : Text :=
  "Error: ".toList ++ m.fault.elim [] Fault.message ++ ['\n']

/-- Take steps until the program has ended, at most as many as the bound. The
    result is the exit code; there is none if the bound was too low. -/
def run : (bound : Nat) → EStateM Abort Machine (Option UInt8)
  | 0 => return none
  | bound + 1 => do
    match ← step with
    | .running => run bound
    | .halted code =>
      modify fun m => { m with journal := m.journal.add (.halted code) }
      return some code
    | .faulted =>
      modify fun m => { m with output := m.output.write (Utf8.encode m.faultLine) }
      return some 1

/-- Take up to so many steps, until one leaves the program ended. -/
def steps : (count : Nat) → EStateM Abort Machine Status
  | 0 => return .running
  | count + 1 => do
    match ← step with
    | .running => steps count
    | status => return status

end Machine

end StackMachine
