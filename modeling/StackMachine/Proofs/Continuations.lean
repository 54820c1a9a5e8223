-- SUMMARY: Steps whose instructions all meet a condition, and what they keep.
import StackMachine.Proofs.Decoding
import StackMachine.Proofs.Encoding
import StackMachine.Proofs.Reachability

/-!
# Continuations

A continuation of a machine is any number of steps, every instruction of which
meets a condition. What one such instruction keeps the whole continuation keeps:
`Machine.Bounded.keeps_step` is the step, `Machine.Continues.keeps` the run. What
a single step of a known instruction does is read off its weakest precondition by
`Machine.Bounded.step_of_executes`.
-/

namespace StackMachine

theorem Word.eq_add_ofNat {w w' : Int64} {n : Nat} (h : w'.toInt = w.toInt + n) :
    w' = w + .ofNat n := by
  have hofInt : w' = .ofInt (w.toInt + n) := by rw [← h, Int64.ofInt_toInt]
  rw [hofInt, Int64.ofInt_add, Int64.ofInt_toInt, Int64.ofInt_eq_ofNat]

/-- An instruction is known by its opcode and its operands. -/
theorem Instruction.eq_of_operands {i j : Instruction} (hopcode : i.opcode = j.opcode)
    (hoperands : i.operands = j.operands) : i = j := by
  cases i with
  | arithmetic op =>
    cases j with
    | arithmetic op' => cases op <;> cases op' <;> first | rfl | cases hopcode
    | jumpTop c _ | jumpFlag c _ => cases op <;> cases c <;> cases hopcode
    | _ => cases op <;> cases hopcode
  | jumpTop c _ =>
    cases j with
    | jumpTop c' _ =>
      obtain rfl : c = c' := by cases c <;> cases c' <;> first | rfl | cases hopcode
      simpa [operands, Int64.toInt_inj] using hoperands
    | arithmetic c' | jumpFlag c' _ => cases c <;> cases c' <;> cases hopcode
    | _ => cases c <;> cases hopcode
  | jumpFlag c _ =>
    cases j with
    | jumpFlag c' _ =>
      obtain rfl : c = c' := by cases c <;> cases c' <;> first | rfl | cases hopcode
      simpa [operands, Int64.toInt_inj] using hoperands
    | arithmetic c' | jumpTop c' _ => cases c <;> cases c' <;> cases hopcode
    | _ => cases c <;> cases hopcode
  | _ =>
    cases j with
    | arithmetic c | jumpTop c _ | jumpFlag c _ => cases c <;> cases hopcode
    | _ => first
      | rfl
      | cases hopcode; done
      | simpa [operands, Int64.toInt_inj] using hoperands

namespace Machine

variable {program : Bytes} {config : Config} {capacity : Nat} {m n : Machine}
  {i : Instruction} {P : Machine → Instruction → Prop} {I : Machine → Prop}

/-- The machine `n` comes from `m` by steps, of which each executes an instruction
    that meets the condition `P`, or none. In between, the request to stop and the
    sink behind the output may change. -/
inductive Continues (P : Machine → Instruction → Prop) (m : Machine) : Machine → Prop
  | refl : Continues P m m
  | step {n : Machine} (h : Continues P m n) (hP : ∀ i, n.Executes i → P n i) :
      Continues P m (n.after .step)
  | terminate {n : Machine} (on : Bool) (h : Continues P m n) :
      Continues P m (n.after (.terminate on))
  | output {n : Machine} (sink : Sink) (h : Continues P m n) :
      Continues P m (n.after (.output sink))

/-- At most one instruction is the next. -/
theorem Executes.unique {j : Instruction} (hi : m.Executes i) (hj : m.Executes j) : i = j := by
  obtain ⟨-, -, -, pc, hi⟩ := hi
  obtain ⟨-, -, -, pc', hj⟩ := hj
  cases hi.symm.trans hj
  rfl

instance (m : Machine) (i : Instruction) : Decidable (m.Executes i) :=
  match hdecoded : Fetch.decode m.memory m.registers.pc with
  | .error _ _ => .isFalse fun ⟨_, _, _, _, hi⟩ => nomatch hdecoded.symm.trans hi
  | .ok j pc =>
    decidable_of_iff (m.fault = none ∧ m.exitCode = none ∧ m.terminating = false ∧ j = i) <| by
      constructor
      · rintro ⟨hfault, hexit, hgo, rfl⟩
        exact ⟨hfault, hexit, hgo, pc, hdecoded⟩
      · rintro ⟨hfault, hexit, hgo, _, hi⟩
        cases hdecoded.symm.trans hi
        exact ⟨hfault, hexit, hgo, rfl⟩

/-- A machine that goes on executes the instruction that is read at its program counter. -/
theorem Ready.executes_of_read? (hsize : program.length < 2 ^ 63)
    (hm : m.Ready program capacity) (hgo : m.terminating = false) {offset : Nat} {next : Place}
    (hpc : m.registers.pc.toInt = offset)
    (hread : Entry.read? ⟨offset, program.drop offset⟩ =
      .ok (⟨offset, i.opcode, i.operands⟩, next)) : m.Executes i := by
  have hagree := hm.agree_decode hsize hpc
  rw [hread] at hagree
  match hdecoded : Fetch.decode m.memory m.registers.pc, hagree with
  | .ok j pc, ⟨⟨_, hopcode, hoperands⟩, _⟩ =>
    obtain rfl := Instruction.eq_of_operands hopcode hoperands
    exact ⟨hm.fault, hm.exitCode, hgo, pc, hdecoded⟩

/-- It executes the instruction whose bytes are there. -/
theorem Ready.executes_of_isPrefix (hsize : program.length < 2 ^ 63)
    (hm : m.Ready program capacity) (hgo : m.terminating = false)
    (hform : List.Forall₂ Operand.OfKind i.opcode.layout.kinds i.operands)
    (h : i.encode <+: program.drop m.registers.pc.toInt.toNat) : m.Executes i := by
  obtain ⟨rest, hrest⟩ := h
  have hread := @Entry.read?_encode ⟨m.registers.pc.toInt.toNat, i.opcode, i.operands⟩ hform rest
  change Entry.read? ⟨_, i.encode ++ rest⟩ = _ at hread
  rw [hrest] at hread
  exact hm.executes_of_read? hsize hgo hm.toInt_pc hread

theorem Continues.step_of_executes (h : Continues P m n) (hi : n.Executes i) (hP : P n i) :
    Continues P m (n.after .step) :=
  .step h fun _ hj => hi.unique hj ▸ hP

theorem Continues.reachable (h : Continues P m n) (hm : Reachable program config m) :
    Reachable program config n := by
  induction h with
  | refl => exact hm
  | step _ _ ih => exact .after _ ih
  | terminate _ _ ih => exact .after _ ih
  | output _ _ ih => exact .after _ ih

/-! ## Steps -/

/-- The property looks at the memory and at the registers other than the program
    counter only. -/
def IgnoresPc (I : Machine → Prop) : Prop :=
  ∀ ⦃m m' : Machine⦄, I m → m'.memory = m.memory →
    m'.registers = { m.registers with pc := m'.registers.pc } → I m'

theorem Bounded.ready_of_executes (hm : m.Bounded program capacity) (h : m.Executes i) :
    m.Ready program capacity :=
  ⟨hm.toInBounds, h.1, h.2.1⟩

/-- The next instruction is within the program, or would be just behind it. -/
theorem Bounded.toInt_next_of_executes (hsize : program.length < 2 ^ 63)
    (hm : m.Bounded program capacity) (h : m.Executes i) :
    let next := m.registers.pc + .ofNat i.encode.length
    next.toInt = m.registers.pc.toInt + i.encode.length ∧ next.toInt ≤ program.length := by
  have hready := hm.ready_of_executes h
  obtain ⟨-, -, -, pc, hdecoded⟩ := h
  have hpc := hready.toInt_of_decode_eq_ok hsize hdecoded
  intro next
  obtain rfl : pc = next := Word.eq_add_ofNat hpc
  exact ⟨hpc, (hready.goTo_of_decode_eq_ok hsize m.journal hdecoded).pc_le⟩

section Steps

variable (hsize : program.length < 2 ^ 63) (hcap : capacity < 2 ^ 63)
include hsize hcap

/-- A step keeps what the instruction that it executes keeps. -/
theorem Bounded.keeps_step (hI : IgnoresPc I) (hm : m.Bounded program capacity) (hinv : I m)
    (hexec : ∀ i pc journal, m.Executes i → Fetch.decode m.memory m.registers.pc = .ok i pc →
      (m.goTo pc journal).Ready program capacity →
      Action.wp (Action.execute i) (fun _ m' => I m') (fun _ m' => I m') (m.goTo pc journal)) :
    I (m.after .step) := by
  obtain ⟨code, hexit⟩ | ⟨hexit, f, hfault⟩ | ⟨hexit, hfault, hterm⟩ | ⟨hready, hgo⟩ := hm.cases
  · rw [Machine.after, step_of_exitCode hexit]
    exact hinv
  · rw [Machine.after, step_of_fault hexit hfault]
    exact hinv
  · rw [Machine.after, step_of_terminating hexit hfault hterm]
    exact hI hinv rfl rfl
  · have hwp {i : Instruction} {pc : Int64}
        (hi : Fetch.decode m.memory m.registers.pc = .ok i pc) (journal : Journal) :=
      hexec i pc journal ⟨hready.fault, hready.exitCode, hgo, pc, hi⟩ hi
        (hready.goTo_of_decode_eq_ok hsize journal hi)
    have hcycles := hready.cycles hsize hcap hgo
    unfold Machine.after
    generalize m.step = r at hcycles
    cases hcycles with
    | malformed decoded => exact hI hinv rfl rfl
    | halted decoded executed => exact hI ((hwp decoded _).of_eq_ok executed) rfl rfl
    | ran decoded executed => exact (hwp decoded _).of_eq_ok executed
    | faulted decoded executed => exact hI ((hwp decoded _).of_eq_error executed) rfl rfl

/-- A step that executes an instruction which does not halt. It either does what
    the instruction does, or records the fault that the instruction ends in. -/
theorem Bounded.step_of_executes {Q : Machine → Prop} {T : Fault → Machine → Prop}
    (hm : m.Bounded program capacity) (h : m.Executes i)
    (hwp : ∀ pc journal, pc.toInt = m.registers.pc.toInt + i.encode.length →
      (m.goTo pc journal).Ready program capacity →
      Action.wp (Action.execute i) (fun code m' => code = none ∧ Q m')
        (fun t m' => ∃ f, t = .fault f ∧ T f m') (m.goTo pc journal)) :
    (∃ m', m.step = .ok .running m' ∧ Q m') ∨
    ∃ f m' journal, m.step = .ok .running { m' with fault := some f, journal } ∧ T f m' := by
  have hready := hm.ready_of_executes h
  obtain ⟨-, -, hgo, pc, hdecoded⟩ := h
  have hwp (journal : Journal) :=
    hwp pc journal (hready.toInt_of_decode_eq_ok hsize hdecoded)
      (hready.goTo_of_decode_eq_ok hsize journal hdecoded)
  have hcycles := hready.cycles hsize hcap hgo
  generalize m.step = r at hcycles
  cases hcycles with
  | malformed decoded => cases hdecoded.symm.trans decoded
  | halted decoded executed =>
    cases hdecoded.symm.trans decoded
    cases ((hwp _).of_eq_ok executed).1
  | ran decoded executed =>
    cases hdecoded.symm.trans decoded
    exact .inl ⟨_, rfl, ((hwp _).of_eq_ok executed).2⟩
  | faulted decoded executed =>
    cases hdecoded.symm.trans decoded
    obtain ⟨_, heq, hT⟩ := (hwp _).of_eq_error executed
    cases heq
    exact .inr ⟨_, _, _, rfl, hT⟩

end Steps

/-! ## Runs -/

section Runs

variable (hsize : program.length < 2 ^ 63) (hstack : config.stackSize < 2 ^ 63)
include hsize hstack

/-- A continuation keeps what each of its instructions keeps. -/
theorem Continues.keeps (hI : IgnoresPc I) (hm : Reachable program config m)
    (h : Continues P m n) (hinv : I m)
    (hexec : ∀ n i pc journal, Reachable program config n → I n → P n i →
      Fetch.decode n.memory n.registers.pc = .ok i pc →
      (n.goTo pc journal).Ready program config.stackSize →
      Action.wp (Action.execute i) (fun _ m' => I m') (fun _ m' => I m') (n.goTo pc journal)) :
    I n := by
  induction h with
  | refl => exact hinv
  | @step n h hP ih =>
    have hn := h.reachable hm
    refine (hn.bounded hsize hstack).keeps_step hsize hstack hI ih ?_
    intro i pc journal hi hdecoded hready
    exact hexec n i pc journal hn ih (hP i hi) hdecoded hready
  | terminate on _ ih => exact hI ih rfl rfl
  | output sink _ ih => exact hI ih rfl rfl

/-- A register that no instruction names as the one to write keeps its value, if
    there is no call either. The program counter and the stack pointer move without
    being named. -/
theorem Continues.get_eq {r : Register} (hsp : r ≠ .sp) (hpc : r ≠ .pc)
    (hm : Reachable program config m) (h : Continues P m n)
    (hP : ∀ n i, P n i → (∀ target, i ≠ .call target) ∧ i.destination? ≠ some r) :
    n.registers.get r = m.registers.get r := by
  refine h.keeps hsize hstack (I := fun n => n.registers.get r = m.registers.get r) ?_ hm rfl ?_
  · intro n n' hget _ hregisters
    rw [hregisters, Action.get_withPc hpc, hget]
  · intro n i pc journal _ hget hi _ _
    obtain ⟨hcall, hdest⟩ := hP n i hi
    have hkeeps := Action.keepsRegister_execute (v := m.registers.get r) hsp hdest
      (fun _ => hpc) hcall (n.goTo pc journal)
      ((Action.get_withPc hpc n.registers pc).trans hget)
    exact hkeeps.mono (fun _ _ hm' => hm') fun _ _ hm' => hm'.2

end Runs

end Machine

end StackMachine
