-- SUMMARY: A limit on the output cuts what is written at that many bytes, and changes nothing before the cut.
import StackMachine.Proofs.Effects
import StackMachine.Proofs.PairedRuns

/-!
# Limits on the output

A machine whose output has a limit does what one without a limit does, until a line
goes beyond the limit. The step that writes this line records the fault of the output
and is otherwise the same, so that what was written is cut in the middle of the line.
The machine without the limit only ever adds to its output, which is why the bytes of
the other one stay the first bytes of it.
-/

namespace StackMachine

/-! ## Sinks -/

namespace Sink

variable {sink : Sink} {limit : Nat}

/-- The sink with another limit. -/
def limited (sink : Sink) (limit : Nat) : Sink :=
  { sink with limit := some limit }

theorem fits_limited (n : Nat) :
    (sink.limited limit).fits n = true ↔ sink.bytes.length + n ≤ limit := by
  rw [Sink.bytes, Array.length_toList]
  exact decide_eq_true_iff

theorem limit_write (bytes : Bytes) : (sink.write bytes).limit = sink.limit := by
  unfold write
  split <;> rfl

theorem write_limited (hunlimited : sink.limit = none) {bytes : Bytes}
    (hfits : sink.bytes.length + bytes.length ≤ limit) :
    (sink.limited limit).write bytes = (sink.write bytes).limited limit := by
  have htake : bytes.take (limit - sink.taken.size) = bytes := by
    rw [Sink.bytes, Array.length_toList] at hfits
    exact List.take_of_length_le (by omega)
  simp [write, limited, hunlimited, htake]

/-- Whether it fits or not, what is there after a write is cut at the limit. -/
theorem bytes_write_limited (hunlimited : sink.limit = none) (hle : sink.bytes.length ≤ limit)
    (bytes : Bytes) :
    ((sink.limited limit).write bytes).bytes = (sink.write bytes).bytes.take limit := by
  have hlimited : (sink.limited limit).limit = some limit := rfl
  rw [bytes_write_of_limit hlimited, bytes_write_of_unlimited hunlimited, List.take_append,
    List.take_of_length_le hle]
  rfl

/-- A sink that is full takes nothing. -/
theorem bytes_write_of_full (hlimit : sink.limit = some limit) (hfull : sink.bytes.length = limit)
    (bytes : Bytes) : (sink.write bytes).bytes = sink.bytes := by
  rw [bytes_write_of_limit hlimit, hfull, Nat.sub_self, List.take_zero, List.append_nil]

end Sink

/-! ## Machines with a limit -/

/-- The first machine has the limit on its output, the second one has none. -/
def Likeness.ofLimit (limit : Nat) : Likeness where
  memory := Eq
  tracing := Eq
  output s t := t.limit = none ∧ s = t.limited limit ∧ t.bytes.length ≤ limit

namespace Machine

/-- The first machine has written all that its limit admits of what the second one
    has, which is more. -/
structure CutAt (limit : Nat) (m n : Machine) : Prop where
  memory : m.memory = n.memory
  registers : m.registers = n.registers
  flag : m.flag = n.flag
  limited : m.output.limit = some limit
  bytes : m.output.bytes = n.output.bytes.take limit
  exceeded : limit < n.output.bytes.length

/-- The first machine is cut by the fault of the output. -/
def CutBy (limit : Nat) (f : Fault) (m n : Machine) : Prop :=
  f = .output ∧ CutAt limit m n

variable {limit : Nat} {m n n' : Machine}

/-- What the second machine writes later on leaves the cut where it is. -/
theorem CutAt.bytes_of_isPrefix (h : CutAt limit m n)
    (hgrown : n.output.bytes <+: n'.output.bytes) :
    m.output.bytes = n'.output.bytes.take limit := by
  obtain ⟨rest, hrest⟩ := hgrown
  rw [← hrest, List.take_append_of_le_length (Nat.le_of_lt h.exceeded), h.bytes]

theorem CutAt.length_bytes (h : CutAt limit m n) : m.output.bytes.length = limit := by
  rw [h.bytes, List.length_take, Nat.min_eq_left (Nat.le_of_lt h.exceeded)]

end Machine

namespace Action

open Machine (CutBy)

variable {limit : Nat}

theorem respects_printLine_ofLimit (line : Text) :
    Respects (Likeness.ofLimit limit).Relates (CutBy limit) (printLine line) := by
  intro m n hmn
  obtain ⟨hunlimited, hlimited, hle⟩ := hmn.output
  unfold printLine
  dsimp only
  generalize Utf8.encode (line ++ ['\n']) = bytes
  have hfits : n.output.fits bytes.length = true := by rw [Sink.fits, hunlimited]
  rw [if_pos hfits]
  by_cases hroom : n.output.bytes.length + bytes.length ≤ limit
  · rw [hlimited, if_pos (Sink.fits_limited _ |>.2 hroom), Sink.write_limited hunlimited hroom]
    refine .ok () { hmn with output := ⟨?_, rfl, ?_⟩ }
    · exact (Sink.limit_write _).trans hunlimited
    · rw [Sink.bytes_write_of_unlimited hunlimited, List.length_append]
      exact hroom
  · rw [hlimited, if_neg fun h => hroom (Sink.fits_limited _ |>.1 h)]
    refine .apart () ⟨rfl, ?_⟩
    exact {
      memory := hmn.memory
      registers := hmn.registers.symm
      flag := hmn.flag.symm
      limited := Sink.limit_write _
      bytes := Sink.bytes_write_limited hunlimited hle bytes
      exceeded := by
        rw [Sink.bytes_write_of_unlimited hunlimited, List.length_append]
        omega }

theorem compatible_ofLimit : Compatible (Likeness.ofLimit limit) (CutBy limit) :=
  compatible_of_sameMemory (congrArg (!·)) respects_printLine_ofLimit

end Action

/-! ## Steps and runs with a limit -/

namespace Machine

variable {program : Bytes} {capacity limit : Nat} {m n n' : Machine}

theorem eq_of_relates_ofLimit (h : (Likeness.ofLimit limit).Relates m n) :
    ∃ journal, m = { n with output := n.output.limited limit, journal } := by
  refine ⟨m.journal, ?_⟩
  cases m
  cases n
  rw [Machine.mk.injEq]
  exact ⟨h.memory, h.registers.symm, h.flag.symm, h.fault.symm, h.exitCode.symm, h.tracing,
    h.terminating.symm, h.output.2.1, rfl⟩

section Sizes

variable (hsize : program.length < 2 ^ 63) (hcap : capacity < 2 ^ 63)
include hsize hcap

/-- A run with the limit returns if the one without it does, with the bytes of that one
    up to the limit. -/
theorem run_of_relates_ofLimit {bound : Nat} {code : UInt8}
    (hm : m.Bounded program capacity) (hn : n.Bounded program capacity)
    (hmn : (Likeness.ofLimit limit).Relates m n) (h : n.run bound = .ok (some code) n') :
    ∃ code' m', m.run bound = .ok (some code') m' ∧
      m'.output.bytes = n'.output.bytes.take limit := by
  induction bound generalizing m n with
  | zero => cases h
  | succ bound ih =>
    have hstep := stepsAlike_of_relates hsize hcap hsize hcap Action.compatible_ofLimit hmn hm hn
      (hmn.decode_eq (congrArg (·.code) hmn.memory.symm))
    have hm' : (leftBy m.step).Bounded program capacity := hm.after hsize hcap .step
    have hn' : (leftBy n.step).Bounded program capacity := hn.after hsize hcap .step
    rw [run_succ] at h ⊢
    generalize m.step = r at hstep hm'
    generalize n.step = r' at hstep hn' h
    cases hstep with
    | error a hnext => cases h
    | @ok m n status hnext =>
      obtain ⟨hunlimited, hlimited, hle⟩ := hnext.output
      cases status with
      | running => exact ih hm' hn' hnext h
      | halted code =>
        cases h
        refine ⟨_, _, rfl, ?_⟩
        rw [hlimited]
        exact (List.take_of_length_le hle).symm
      | faulted =>
        cases h
        refine ⟨_, _, rfl, ?_⟩
        rw [hnext.faultLine_eq, hlimited]
        generalize Utf8.encode m.faultLine = line
        exact Sink.bytes_write_limited hunlimited hle _
    | @apart f m n journal hcut =>
      cases bound with
      | zero => cases h
      | succ bound =>
        -- The machine that was cut reports a fault, on an output that is full.
        refine ⟨_, _, run_of_faulted (hm'.ending_of_fault rfl) bound, ?_⟩
        have hgrown : n.output.bytes <+: (leftBy (n.run (bound + 1))).output.bytes :=
          Bounded.isPrefix_run hsize hcap hn' (bound + 1)
        change n.run (bound + 1) = .ok (some code) n' at h
        rw [h] at hgrown
        exact (Sink.bytes_write_of_full hcut.2.limited hcut.2.length_bytes _).trans
          (hcut.2.bytes_of_isPrefix hgrown)

/-- Two machines stay alike until a step cuts the output of the first one. -/
theorem relates_or_cutAt (hm : m.Bounded program capacity) (hn : n.Bounded program capacity)
    (hmn : (Likeness.ofLimit limit).Relates m n) (k : Nat) :
    (Likeness.ofLimit limit).Relates (m.afterSteps k) (n.afterSteps k) ∨
    ∃ j < k, (∀ i ≤ j, (Likeness.ofLimit limit).Relates (m.afterSteps i) (n.afterSteps i)) ∧
      (m.afterSteps (j + 1)).fault = some .output ∧
      CutAt limit (m.afterSteps (j + 1)) (n.afterSteps (j + 1)) := by
  obtain ⟨-, halike⟩ | ⟨j, hj, halike, f, m', journal, ⟨rfl, hcut⟩, heq⟩ :=
    relates_or_setApart hsize hcap hsize hcap Action.compatible_ofLimit hmn hm hn k
      fun _ _ h => h.decode_eq (congrArg (·.code) h.memory.symm)
  · exact .inl (halike k (Nat.le_refl k))
  · refine .inr ⟨j, hj, halike, ?_⟩
    rw [heq]
    exact ⟨rfl, { hcut with }⟩

/-- A machine that has ended has nothing to write, so the step that is cut begins
    without a fault. -/
theorem fault_eq_none_of_cutAt {j : Nat} (hn : n.Bounded program capacity)
    (halike : (Likeness.ofLimit limit).Relates (m.afterSteps j) (n.afterSteps j))
    (hcut : CutAt limit (m.afterSteps (j + 1)) (n.afterSteps (j + 1))) :
    (m.afterSteps j).fault = none := by
  cases hfault : (m.afterSteps j).fault with
  | none => rfl
  | some f =>
    have hending := (hn.afterSteps hsize hcap j).ending_of_fault (halike.fault.trans hfault)
    have hexceeded := hcut.exceeded
    rw [afterSteps_add, afterSteps_of_ending hending] at hexceeded
    exact absurd hexceeded (Nat.not_lt_of_le halike.output.2.2)

end Sizes

/-- A limit on the output cuts the output and corrupts nothing. After any number of
    steps, if what the machine without the limit has written does not go beyond it, the
    machine with the limit is the same but for the limit and the journal. Otherwise one
    step wrote the first line that did. The fault of the output is recorded in that
    step and stays, the registers, all slots and the flag stay what they are without
    the limit right after that step, and the output is what is written without the
    limit, cut at it. If a run without the limit returns, so does one with the limit,
    and it has written the same bytes up to the limit. -/
theorem output_limit_only_cuts (program : Bytes) (config : Config) (limit : Nat)
    (hsize : program.length < 2 ^ 63) (hstack : config.stackSize < 2 ^ 63) :
    let full := ofProgram program { config with outputLimit := none }
    let cut := ofProgram program { config with outputLimit := some limit }
    let written := fun k => (full.afterSteps k).output.bytes
    (∀ n, (written n).length ≤ limit → ∃ journal,
      cut.afterSteps n =
        { full.afterSteps n with output := (full.afterSteps n).output.limited limit, journal }) ∧
    (∀ n, limit < (written n).length → ∃ k < n,
      (∀ j ≤ k, (written j).length ≤ limit) ∧ limit < (written (k + 1)).length ∧
      (cut.afterSteps k).fault = none ∧ (cut.afterSteps (k + 1)).fault = some .output ∧
      (cut.afterSteps n).fault = some .output ∧
      (cut.afterSteps n).output.bytes = (written n).take limit ∧
      (cut.afterSteps n).registers = (full.afterSteps (k + 1)).registers ∧
      (cut.afterSteps n).memory = (full.afterSteps (k + 1)).memory ∧
      (cut.afterSteps n).flag = (full.afterSteps (k + 1)).flag) ∧
    ∀ code m, full.RunsTo (.ok code m) → ∃ code' m', cut.RunsTo (.ok code' m') ∧
      m'.output.bytes = m.output.bytes.take (min limit m.output.bytes.length) := by
  intro full cut written
  have hmn : (Likeness.ofLimit limit).Relates cut full :=
    Likeness.relates_ofProgram rfl rfl ⟨rfl, rfl, Nat.zero_le _⟩
  have hcut : cut.Bounded program config.stackSize :=
    (ready_ofProgram program { config with outputLimit := some limit }).bounded
  have hfull : full.Bounded program config.stackSize :=
    (ready_ofProgram program { config with outputLimit := none }).bounded
  have hcases := relates_or_cutAt hsize hstack hcut hfull hmn
  have hgrows {j k : Nat} (hle : j ≤ k) : written j <+: written k :=
    hfull.isPrefix_afterSteps hsize hstack hle
  refine ⟨fun n hle => ?_, fun n hlt => ?_, ?_⟩
  · obtain halike | ⟨k, hk, -, -, hcutAt⟩ := hcases n
    · exact eq_of_relates_ofLimit halike
    · have hlonger := (hgrows hk).length_le
      exact absurd hcutAt.exceeded (Nat.not_lt_of_le (Nat.le_trans hlonger hle))
  · obtain halike | ⟨k, hk, halike, hfault, hcutAt⟩ := hcases n
    · exact absurd hlt (Nat.not_lt_of_le halike.output.2.2)
    · have hnone := fault_eq_none_of_cutAt hsize hstack hfull (halike k (Nat.le_refl k)) hcutAt
      -- The machine has ended, and takes no part in the steps after the cut.
      have hstays : cut.afterSteps n = cut.afterSteps (k + 1) := by
        obtain ⟨l, rfl⟩ := Nat.exists_eq_add_of_le (Nat.succ_le_of_lt hk)
        have hending := (hcut.afterSteps hsize hstack (k + 1)).ending_of_fault hfault
        rw [afterSteps_add, afterSteps_of_ending hending]
      rw [hstays]
      exact ⟨k, hk, fun j hj => (halike j hj).output.2.2, hcutAt.exceeded, hnone, hfault, hfault,
        hcutAt.bytes_of_isPrefix (hgrows hk), hcutAt.registers, hcutAt.memory, hcutAt.flag⟩
  · rintro code m ⟨bound, hrun⟩
    obtain ⟨code', m', hrun', hbytes⟩ :=
      run_of_relates_ofLimit hsize hstack hcut hfull hmn hrun
    refine ⟨code', m', ⟨bound, hrun'⟩, ?_⟩
    rw [hbytes, ← List.take_take, List.take_length]

/-- Two dumps of the empty stack on an output of four bytes: the second line is cut
    behind its first byte, the fault stays when the program would have halted, and a run
    has written the same four bytes. -/
theorem output_limit_only_cuts_second_line :
    let program := [Opcode.dump.byte, Opcode.dump.byte, Opcode.halt.byte, 0]
    let full := ofProgram program { stackSize := 1, outputLimit := none }
    let cut := ofProgram program { stackSize := 1, outputLimit := some 4 }
    (full.afterSteps 3).output.bytes = [91, 93, 10, 91, 93, 10] ∧
    (cut.afterSteps 3).output.bytes = [91, 93, 10, 91] ∧
    (cut.afterSteps 3).fault = some .output ∧
    (∃ k < 3, (cut.afterSteps k).fault = none ∧ (cut.afterSteps (k + 1)).fault = some .output ∧
      (cut.afterSteps 3).registers = (full.afterSteps (k + 1)).registers) ∧
    ∃ code m, cut.RunsTo (.ok code m) ∧ m.output.bytes = [91, 93, 10, 91] := by
  intro program full cut
  have hwritten : (full.afterSteps 3).output.bytes = [91, 93, 10, 91, 93, 10] := by decide
  obtain ⟨-, hcut, hrun⟩ :=
    output_limit_only_cuts program { stackSize := 1 } 4 (by decide) (by decide)
  obtain ⟨k, hk, -, -, hnone, hfault, hlast, hbytes, hregisters, -⟩ := hcut 3 (by decide)
  have hreplies : full.replies 3 = [.ok .running, .ok .running, .ok (.halted 0)] := by decide
  have hhalted : (full.afterSteps 3).ending? = some (.halted 0) := by decide
  have hreturns : full.RunsTo (.ok 0 { full.afterSteps 3 with
      journal := (full.afterSteps 3).journal.add (.halted 0) }) :=
    (runsTo_afterSteps 3 (by simp [hreplies])).1 ⟨1, run_of_halted hhalted 0⟩
  obtain ⟨code, m, hcutRun, hcutBytes⟩ := hrun _ _ hreturns
  dsimp only at hcutBytes
  have htake : (full.afterSteps 3).output.bytes.take
      (min 4 (full.afterSteps 3).output.bytes.length) = [91, 93, 10, 91] := by
    rw [hwritten]
    rfl
  exact ⟨hwritten, hbytes.trans (congrArg (·.take 4) hwritten), hlast,
    ⟨k, hk, hnone, hfault, hregisters⟩, code, m, hcutRun, hcutBytes.trans htake⟩

end Machine

end StackMachine
