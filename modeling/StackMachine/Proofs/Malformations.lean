-- SUMMARY: A malformation moves the program counter and nothing else, and never back from the end of the program.
import StackMachine.Proofs.Reachability

/-!
# Malformations

A step that ends in a malformation has read bytes and done nothing else. It has
read one byte or more, unless the program had ended, so the program counter moves
on with each malformation until it is at the end. There it stays: every further
step finds that the program has ended.
-/

namespace StackMachine

/-- Only the end of the program is met without reading a byte. -/
theorem Malformation.LeavesAt.le_of_ne {size low stop : Int} {f : Malformation}
    (h : f.LeavesAt size low stop) (hne : ∀ k, f ≠ Malformation.unexpectedEnd k) : low ≤ stop := by
  cases f with
  | unexpectedEnd k => exact absurd rfl (hne k)
  | unknownOpcode | unknownRegister | malformedInteger | malformedString => exact h.1

/-! ## The end of the program -/

theorem Fetch.decode_of_byte?_eq_none {memory : Memory} {pc : Int64}
    (h : memory.byte? pc = none) :
    Fetch.decode memory pc = .error (.unexpectedEnd pc.toInt) pc := by
  have hbyte : Fetch.byte memory pc = .error (.unexpectedEnd pc.toInt) pc := by
    rw [Fetch.byte, h]
  have hopcode : Fetch.opcode memory pc = .error (.unexpectedEnd pc.toInt) pc := by
    change (Fetch.byte >>= _ : Fetch Opcode) memory pc = _
    rw [Fetch.bind_apply, hbyte]
  rw [Fetch.decode, Fetch.bind_apply, hopcode]

namespace Machine

variable {program : Bytes} {capacity : Nat} {m m' : Machine}

theorem Ready.decode_at_end (hm : m.Ready program capacity)
    (hend : m.registers.pc.toInt = program.length) :
    Fetch.decode m.memory m.registers.pc =
      .error (.unexpectedEnd program.length) m.registers.pc := by
  have hnone : m.memory.byte? m.registers.pc = none := by
    have hsome := Memory.isSome_byte? m.memory m.registers.pc
    have hout : m.memory.inCode m.registers.pc = false := by
      simp [Memory.inCode, hm.code_size, hend]
    rw [hout] at hsome
    simpa using hsome
  rw [Fetch.decode_of_byte?_eq_none hnone, hend]

/-! ## Steps -/

/-- Steps one after the other, each of which ends in a malformation: those that
    are listed, in this order. -/
inductive Misreads : Machine → List Malformation → Machine → Prop
  | nil (m : Machine) : Misreads m [] m
  | cons {m m' n : Machine} {f : Malformation} {fs : List Malformation}
      (hstep : m.step = .error (.malformed f) m') (h : Misreads m' fs n) :
      Misreads m (f :: fs) n

section Steps

variable (hsize : program.length < 2 ^ 63) (hcap : capacity < 2 ^ 63)
include hsize hcap

/-- What a step that has no status leaves: a malformation has moved the program
    counter. -/
theorem Bounded.goTo_of_step_eq_error {a : Abort} (hm : m.Bounded program capacity)
    (h : m.step = .error a m') :
    m.Ready program capacity ∧ m.terminating = false ∧
    ∃ f pc journal, a = .malformed f ∧ m' = m.goTo pc journal ∧
      f.LeavesAt program.length (m.registers.pc.toInt + 1) pc.toInt := by
  obtain ⟨code, hexit⟩ | ⟨hexit, f, hfault⟩ | ⟨hexit, hfault, hterm⟩ | ⟨hready, hgo⟩ := hm.cases
  · rw [step_of_exitCode hexit] at h
    cases h
  · rw [step_of_fault hexit hfault] at h
    cases h
  · rw [step_of_terminating hexit hfault hterm] at h
    cases h
  · refine ⟨hready, hgo, ?_⟩
    have hcode : m.memory.code.size < 2 ^ 63 := by rw [hready.code_size]; exact hsize
    have hcycles := hready.cycles hsize hcap hgo
    rw [h] at hcycles
    cases hcycles with
    | malformed decoded =>
      have hleaves := Fetch.leavesAt_of_decode_eq_error hcode hready.inReach decoded
      rw [hready.code_size] at hleaves
      exact ⟨_, _, _, rfl, rfl, hleaves⟩

theorem Bounded.of_step_eq_error {a : Abort} (hm : m.Bounded program capacity)
    (h : m.step = .error a m') : m'.Bounded program capacity := by
  have hsecure := hm.secure_step hsize hcap
  rw [h] at hsecure
  exact hsecure.2

/-- At the end of the program a step finds just that, and changes nothing. -/
theorem Ready.step_at_end (hm : m.Ready program capacity) (hgo : m.terminating = false)
    (hend : m.registers.pc.toInt = program.length) :
    ∃ journal, m.step = .error (.malformed (.unexpectedEnd program.length)) { m with journal } := by
  have hdecoded := hm.decode_at_end hend
  have hcycles := hm.cycles hsize hcap hgo
  generalize m.step = r at hcycles
  cases hcycles with
  | malformed decoded =>
    cases hdecoded.symm.trans decoded
    exact ⟨_, rfl⟩
  | halted decoded | ran decoded | faulted decoded => cases hdecoded.symm.trans decoded

/-- However many steps are taken there. -/
theorem Ready.misreads_at_end (count : Nat) (hm : m.Ready program capacity)
    (hgo : m.terminating = false) (hend : m.registers.pc.toInt = program.length) :
    ∃ journal, Misreads m (List.replicate count (.unexpectedEnd program.length))
      { m with journal } := by
  induction count generalizing m with
  | zero => exact ⟨m.journal, .nil m⟩
  | succ count ih =>
    obtain ⟨journal, hstep⟩ := hm.step_at_end hsize hcap hgo hend
    obtain ⟨journal', hrest⟩ := ih (m := { m with journal }) { hm with } hgo hend
    exact ⟨journal', .cons hstep hrest⟩

/-- The malformations of steps one after the other are, first, some that each
    take a byte or more of what is left of the program, and then its end. -/
theorem Bounded.exists_of_misreads {fs : List Malformation} {n : Machine}
    (hm : m.Bounded program capacity) (h : Misreads m fs n) :
    ∃ (others : List Malformation) (count : Nat),
      fs = others ++ List.replicate count (Malformation.unexpectedEnd program.length) ∧
      (∀ f ∈ others, ∀ k, f ≠ Malformation.unexpectedEnd k) ∧
      m.registers.pc.toInt + others.length ≤ program.length := by
  induction h with
  | nil m => exact ⟨[], 0, rfl, by simp, by simpa using hm.pc_le⟩
  | @cons m m' n f fs hstep h ih =>
    obtain ⟨others, count, rfl, hothers, hle⟩ := ih (hm.of_step_eq_error hsize hcap hstep)
    obtain ⟨-, -, _, pc, journal, heq, rfl, hleaves⟩ := hm.goTo_of_step_eq_error hsize hcap hstep
    cases heq
    change pc.toInt + _ ≤ _ at hle
    by_cases hend : ∃ k, f = .unexpectedEnd k
    · -- The program counter is at the end, so there is no room for any others.
      obtain ⟨k, rfl⟩ := hend
      obtain ⟨rfl, hend⟩ := hleaves
      have hnone : others = [] := List.length_eq_zero_iff.1 (by omega)
      subst hnone
      exact ⟨[], count + 1, rfl, by simp, by simpa using hm.pc_le⟩
    · have hne : ∀ k, f ≠ Malformation.unexpectedEnd k := fun k hk => hend ⟨k, hk⟩
      have hlow := hleaves.le_of_ne hne
      refine ⟨f :: others, count, rfl, List.forall_mem_cons.2 ⟨hne, hothers⟩, ?_⟩
      rw [List.length_cons]
      omega

end Steps

/-- What a step without a status leaves behind, in every state that a machine can
    get into. It has ended in a malformation; but for the journal nothing has
    changed except the program counter, which has not moved back and is at most at
    the end of the program. If the malformation is that the program has ended,
    then the program counter is at the end, and any number of further steps find
    the same and change nothing at all. Any other malformation has moved the
    program counter on. So of the malformations that steps one after the other
    end in, at most as many as the program has bytes come before the end is met,
    and only the end is met from then on. -/
theorem step_malformed_frame {config : Config} {a : Abort} (hsize : program.length < 2 ^ 63)
    (hstack : config.stackSize < 2 ^ 63) (h : Reachable program config m)
    (hstep : m.step = .error a m') :
    ∃ f, a = .malformed f ∧
      m' = { m with
        registers := { m.registers with pc := m'.registers.pc }
        journal := m'.journal } ∧
      (m.registers.pc.toInt ≤ m'.registers.pc.toInt ∧
        m'.registers.pc.toInt ≤ program.length) ∧
      (∀ k, f = .unexpectedEnd k →
        k = program.length ∧ m'.registers.pc.toInt = program.length ∧
        ∀ count, ∃ journal, Misreads m' (List.replicate count (.unexpectedEnd program.length))
          { m' with journal }) ∧
      ((∀ k, f ≠ Malformation.unexpectedEnd k) → m.registers.pc.toInt < m'.registers.pc.toInt) ∧
      ∀ fs n, Misreads m fs n →
        ∃ (others : List Malformation) (count : Nat),
          fs = others ++ List.replicate count (Malformation.unexpectedEnd program.length) ∧
          (∀ g ∈ others, ∀ k, g ≠ Malformation.unexpectedEnd k) ∧
          others.length ≤ program.length := by
  have hm := h.bounded hsize hstack
  have hm' := hm.of_step_eq_error hsize hstack hstep
  obtain ⟨hready, hgo, f, pc, journal, rfl, rfl, hleaves⟩ :=
    hm.goTo_of_step_eq_error hsize hstack hstep
  have hmoved (hne : ∀ k, f ≠ Malformation.unexpectedEnd k) : m.registers.pc.toInt < pc.toInt :=
    hleaves.le_of_ne hne
  refine ⟨f, rfl, rfl, ⟨?_, hm'.pc_le⟩, fun k hk => ?_, hmoved, fun fs n hfs => ?_⟩
  · by_cases hend : ∃ k, f = .unexpectedEnd k
    · obtain ⟨k, rfl⟩ := hend
      obtain ⟨-, hend⟩ := hleaves
      exact hm.pc_le.trans_eq hend.symm
    · exact Int.le_of_lt (hmoved fun k hk => hend ⟨k, hk⟩)
  · subst hk
    obtain ⟨rfl, hend⟩ := hleaves
    have hready' : (m.goTo pc journal).Ready program config.stackSize :=
      ⟨hm'.toInBounds, hready.fault, hready.exitCode⟩
    exact ⟨rfl, hend, fun count => hready'.misreads_at_end hsize hstack count hgo hend⟩
  · obtain ⟨others, count, hfs, hothers, hle⟩ := hm.exists_of_misreads hsize hstack hfs
    have hlow := hm.zero_le_pc
    exact ⟨others, count, hfs, hothers, by omega⟩

/-- An unknown register, and then an integer that is cut off by the end. -/
theorem step_malformed_frame_at_end :
    let program := [Opcode.compare.byte, 0, 99, Opcode.pushInt.byte, 1]
    let m := (ofProgram program { stackSize := 1 }).after .step
    m.registers.pc = 3 ∧ (m.after .step).registers.pc = 5 ∧
      (m.after .step).registers.general = m.registers.general ∧
      ∃ journal, Misreads (m.after .step) [.unexpectedEnd 5, .unexpectedEnd 5]
        { m.after .step with journal } := by
  intro program m
  have hm : Reachable program { stackSize := 1 } m := .after _ .fresh
  obtain ⟨m', hstep⟩ : ∃ m', m.step = .error (.malformed (.unexpectedEnd 5)) m' := by
    have hends : (match m.step with
        | .ok _ _ => false
        | .error a _ => decide (a = .malformed (.unexpectedEnd 5))) = true := by decide
    cases hstep : m.step with
    | ok status m' =>
      rw [hstep] at hends
      cases hends
    | error a m' =>
      rw [hstep] at hends
      exact ⟨m', by rw [of_decide_eq_true hends]⟩
  obtain ⟨f, heq, hframe, -, hend, -⟩ := step_malformed_frame (by decide) (by decide) hm hstep
  cases heq
  obtain ⟨-, hpc, hmisreads⟩ := hend 5 rfl
  have hafter : m.after .step = m' := by rw [after, hstep, leftBy]
  rw [hafter]
  refine ⟨by decide, Int64.toInt_inj.1 hpc, ?_, hmisreads 2⟩
  rw [hframe]

end Machine

end StackMachine
