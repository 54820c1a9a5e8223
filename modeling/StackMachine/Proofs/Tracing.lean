-- SUMMARY: Tracing is invisible to the program, whatever calls a machine gets.
import StackMachine.Proofs.PairedRuns
import StackMachine.Proofs.TraceLines

/-!
# Tracing

Two machines that differ in their settings of tracing stay that way and differ in
nothing else but their journals, whatever calls they get, and each call returns the
same for both.
-/

namespace StackMachine

/-! ## Replies -/

namespace Machine

/-- What a call returns. -/
inductive Reply where
  | stepped (r : Except Abort Status)
  | ran (r : Except Abort (Option UInt8))
  | done
  deriving DecidableEq

def reply (m : Machine) : Call → Reply
  | .step => .stepped (returned m.step)
  | .run bound => .ran (returned (m.run bound))
  | .terminate _ | .output _ => .done

/-- What all of the calls return, in their order. -/
def allReplies : Machine → List Call → List Reply
  | _, [] => []
  | m, c :: calls => m.reply c :: (m.after c).allReplies calls

end Machine

/-! ## Machines that differ in tracing -/

/-- The second machine has the opposite setting of tracing. -/
def Likeness.ofTracing : Likeness where
  memory := Eq
  tracing on on' := on' = !on
  output := Eq

theorem Action.compatible_ofTracing : Compatible Likeness.ofTracing Never :=
  compatible_of_sameMemory (congrArg (!·)) respects_printLine

namespace Machine

variable {program : Bytes} {config : Config} {capacity : Nat} {m n : Machine}

theorem relates_ofTracing (m : Machine) (journal : Journal) :
    Likeness.ofTracing.Relates m { m with tracing := !m.tracing, journal } where
  memory := rfl
  registers := rfl
  flag := rfl
  fault := rfl
  exitCode := rfl
  terminating := rfl
  tracing := rfl
  output := rfl

theorem eq_of_relates_ofTracing (h : Likeness.ofTracing.Relates m n) :
    n = { m with tracing := !m.tracing, journal := n.journal } := by
  cases m
  cases n
  rw [Machine.mk.injEq]
  exact ⟨h.memory.symm, h.registers, h.flag, h.fault, h.exitCode, h.tracing, h.terminating,
    h.output.symm, rfl⟩

theorem Bounded.of_relates (hm : m.Bounded program capacity)
    (h : Likeness.ofTracing.Relates m n) : n.Bounded program capacity := by
  rw [eq_of_relates_ofTracing h]
  exact ⟨{ hm.toInBounds with }, hm.ended⟩

section Sizes

variable (hsize : program.length < 2 ^ 63) (hcap : capacity < 2 ^ 63)
include hsize hcap

theorem stepsAlike_ofTracing (hm : m.Bounded program capacity)
    (h : Likeness.ofTracing.Relates m n) :
    StepsAlike Likeness.ofTracing.Relates Action.Never m.step n.step :=
  stepsAlike_of_relates hsize hcap hsize hcap Action.compatible_ofTracing h hm (hm.of_relates h)
    (h.decode_eq (congrArg (·.code) h.memory.symm))

theorem run_ofTracing (hm : m.Bounded program capacity) (h : Likeness.ofTracing.Relates m n)
    (bound : Nat) :
    returned (n.run bound) = returned (m.run bound) ∧
    Likeness.ofTracing.Relates (leftBy (m.run bound)) (leftBy (n.run bound)) := by
  induction bound generalizing m n with
  | zero => exact ⟨rfl, h⟩
  | succ bound ih =>
    have hstep := stepsAlike_ofTracing hsize hcap hm h
    have hnext : (leftBy m.step).Bounded program capacity := hm.after hsize hcap .step
    rw [run_succ, run_succ]
    generalize m.step = r at hstep hnext
    generalize n.step = r' at hstep
    cases hstep with
    | error a hmn => exact ⟨rfl, hmn⟩
    | apart journal hnever => exact hnever.elim
    | @ok m n status hmn =>
      cases status with
      | running => exact ih hnext hmn
      | halted code => exact ⟨rfl, { hmn with }⟩
      | faulted =>
        dsimp only
        rw [hmn.faultLine_eq]
        generalize Utf8.encode m.faultLine = line
        have hwrite : m.output.write line = n.output.write line := by
          rw [show m.output = n.output from hmn.output]
        exact ⟨rfl, { hmn with output := hwrite }⟩

theorem after_ofTracing (hm : m.Bounded program capacity) (h : Likeness.ofTracing.Relates m n)
    (c : Call) :
    n.reply c = m.reply c ∧ Likeness.ofTracing.Relates (m.after c) (n.after c) := by
  cases c with
  | step =>
    obtain ⟨hreply, hnext⟩ | ⟨_, _, _, hnever, -⟩ := (stepsAlike_ofTracing hsize hcap hm h).after
    · exact ⟨congrArg Reply.stepped hreply, hnext⟩
    · exact hnever.elim
  | run bound =>
    obtain ⟨hreply, hnext⟩ := run_ofTracing hsize hcap hm h bound
    exact ⟨congrArg Reply.ran hreply, hnext⟩
  | terminate on => exact ⟨rfl, { h with terminating := rfl }⟩
  | output sink => exact ⟨rfl, { h with output := rfl }⟩

theorem afterAll_ofTracing (hm : m.Bounded program capacity)
    (h : Likeness.ofTracing.Relates m n) (calls : List Call) :
    n.allReplies calls = m.allReplies calls ∧
    Likeness.ofTracing.Relates (m.afterAll calls) (n.afterAll calls) := by
  induction calls generalizing m n with
  | nil => exact ⟨rfl, h⟩
  | cons c calls ih =>
    obtain ⟨hreply, hnext⟩ := after_ofTracing hsize hcap hm h c
    obtain ⟨hreplies, hlast⟩ := ih (hm.after hsize hcap c) hnext
    exact ⟨by rw [allReplies, allReplies, hreply, hreplies], hlast⟩

/-- The instruction that turns tracing on or off goes to the next one, and does nothing
    else. -/
theorem Bounded.step_of_toggle (hm : m.Bounded program capacity) (h : m.Executes .step) :
    ∃ journal, m.step = .ok .running { m with
      registers := { m.registers with pc := m.registers.pc + 1 }
      tracing := !m.tracing
      journal } := by
  have hready := hm.ready_of_executes h
  obtain ⟨-, -, hgo, pc, hdecoded⟩ := h
  have hpc : pc = m.registers.pc + 1 :=
    Word.eq_add_ofNat (hready.toInt_of_decode_eq_ok hsize hdecoded)
  obtain ⟨journal, hstep⟩ := (hready.cycles hsize hcap hgo).of_decode_eq_ok hdecoded
  rw [← hpc]
  generalize m.step = r at hstep
  cases hstep
  exact ⟨_, rfl⟩

end Sizes

/-- Tracing is invisible to the program. Let a machine, in any state that it can get
    into, have a twin with the opposite setting of tracing and any journal. Whatever
    calls the two get, each call returns the same for both, and afterwards the twin
    again differs in its setting of tracing and its journal only. The instruction that
    turns tracing on or off goes to the next one and does nothing else. If the journal
    keeps trace lines, the calls add one for each state from which they took a step with
    tracing on and an opcode to read, in their order: `0x` and the offset of the opcode,
    its mnemonic and the state. -/
theorem tracing_is_invisible (hsize : program.length < 2 ^ 63)
    (hstack : config.stackSize < 2 ^ 63) (h : Reachable program config m) (journal : Journal)
    (calls : List Call) :
    let twin := { m with tracing := !m.tracing, journal }
    twin.allReplies calls = m.allReplies calls ∧
    (∃ journal', twin.afterAll calls = { m.afterAll calls with
      tracing := !(m.afterAll calls).tracing
      journal := journal' }) ∧
    (m.Executes .step → ∃ journal', m.step = .ok .running { m with
      registers := { m.registers with pc := m.registers.pc + 1 }
      tracing := !m.tracing
      journal := journal' }) ∧
    (m.journal.keeps .info → ∃ lines,
      (m.afterAll calls).journal.traceLines = m.journal.traceLines ++ lines ∧
      List.Forall₂ (Traced program) ((m.allStates calls).filter traces) lines) := by
  intro twin
  have hm := h.bounded hsize hstack
  obtain ⟨hreplies, hlast⟩ := afterAll_ofTracing hsize hstack hm (relates_ofTracing m journal) calls
  refine ⟨hreplies, ⟨_, eq_of_relates_ofTracing hlast⟩, hm.step_of_toggle hsize hstack,
    fun hkeeps => ⟨_, (hm.shows_afterAll hsize hstack hkeeps calls).traceLines, ?_⟩⟩
  exact forall₂_traced fun s hs => (hm.of_mem_allStates hsize hstack hs).toInBounds

/-- A program that turns tracing on, dumps, turns it off and dumps, and a twin that
    traces where it does not. Two of its four opcodes have trace lines. -/
theorem tracing_is_invisible_while_toggled :
    let program := [Opcode.step.byte, Opcode.dump.byte, Opcode.step.byte, Opcode.dump.byte]
    let m := ofProgram program { stackSize := 1, journal := some .info }
    let twin := { m with tracing := !m.tracing }
    let calls := [Call.step, .run 2, .step, .terminate true, .run 1]
    let lines := [
      "0x0001 DUMP PC=0x0002 SP=0 FP=0x0000 RT=0x0000 flag=Equal stack=[]".toList,
      "0x0002 STEP PC=0x0003 SP=0 FP=0x0000 RT=0x0000 flag=Equal stack=[]".toList]
    m.Executes .step ∧
    twin.allReplies calls = m.allReplies calls ∧
    (twin.afterAll calls).output = (m.afterAll calls).output ∧
    (twin.afterAll calls).tracing = !(m.afterAll calls).tracing ∧
    (m.afterAll calls).journal.traceLines = lines ∧
    List.Forall₂ (Traced program) ((m.allStates calls).filter traces) lines := by
  intro program m twin calls lines
  have hm : Reachable program { stackSize := 1, journal := some .info } m := .fresh
  have hexecutes : m.Executes .step := ⟨rfl, rfl, rfl, 1, rfl⟩
  have hwritten : (m.afterAll calls).journal.traceLines = lines := by decide +kernel
  obtain ⟨hreplies, ⟨journal, htwin⟩, -, hlines⟩ :=
    tracing_is_invisible (by decide) (by decide) hm m.journal calls
  change twin.afterAll calls = _ at htwin
  obtain ⟨lines', hadded, htraced⟩ := hlines rfl
  have hempty : m.journal.traceLines = [] := rfl
  rw [hempty, List.nil_append, hwritten] at hadded
  subst hadded
  exact ⟨hexecutes, hreplies, by rw [htwin], by rw [htwin], hwritten, htraced⟩

end Machine

end StackMachine
