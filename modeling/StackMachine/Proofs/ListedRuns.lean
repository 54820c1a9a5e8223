-- SUMMARY: Runs followed on the list machine, with one rule for each instruction.
import Mathlib.Logic.Relation
import StackMachine.Proofs.StraightLine
import StackMachine.Proofs.Subroutines

/-!
# Runs on the list machine

What a program does is followed most easily on the list machine, where an instruction
that finds its operands is one equation between states: the rules `advance_…` below.
`ListMachine.Reaches` chains the instructions that lie in the program, and
`Machine.Bounded.runsTo_of_reaches` makes a chain that ends in front of a `HALT` a run of
the machine.
-/

namespace StackMachine

namespace Instruction

/-- The instruction neither halts nor names the stack pointer as the register to be written. -/
def isPlain (i : Instruction) : Bool :=
  i.exitCode? = none ∧ i.destination? ≠ some .sp

/-- The instruction at an offset, in code that begins at the offset `start`. -/
def at? (target : Nat) : (start : Nat) → List Instruction → Option Instruction
  | _, [] => none
  | start, i :: block =>
    if start = target then some i else at? target (start + i.encode.length) block

theorem isPlain_iff {i : Instruction} :
    i.isPlain = true ↔ i.exitCode? = none ∧ i.destination? ≠ some .sp :=
  decide_eq_true_iff

theorem length_encode_pushInt (v : Int64) : (pushInt v).encode.length = 9 := by
  simp [encode, operands, Operand.encode, Slot.width]

theorem length_encode_setInt (r : Register) (v : Int64) : (setInt r v).encode.length = 10 := by
  simp [encode, operands, Operand.encode, Slot.width]

theorem length_encode_jumpFlag (c : Condition) (target : Int64) :
    (jumpFlag c target).encode.length = 9 := by
  simp [encode, operands, Operand.encode, Slot.width]

theorem length_encode_arithmetic (op : Arithmetic) : (arithmetic op).encode.length = 1 :=
  rfl

end Instruction

instance decidableOfKind : (kind : OperandKind) → (o : Operand) → Decidable (o.OfKind kind)
  | .exitCode, .exitCode code => .isTrue (.exitCode code)
  | .register, .register r => .isTrue (.register r)
  | .integer, .integer v => decidable_of_iff (Slot.Fits v) ⟨.integer, fun | .integer h => h⟩
  | .address, .integer v => decidable_of_iff (Slot.Fits v) ⟨.address, fun | .address h => h⟩
  | .string, .string b =>
    decidable_of_iff (b.length ≤ maxStringLength) ⟨.string, fun | .string h => h⟩
  | .exitCode, .register _ | .exitCode, .integer _ | .exitCode, .string _
  | .register, .exitCode _ | .register, .integer _ | .register, .string _
  | .integer, .exitCode _ | .integer, .register _ | .integer, .string _
  | .address, .exitCode _ | .address, .register _ | .address, .string _
  | .string, .exitCode _ | .string, .register _ | .string, .integer _ => .isFalse nofun

theorem Coded.of_at? {program : Bytes} {target start : Nat} {i : Instruction}
    {block : List Instruction} (h : Coded program start block)
    (hi : Instruction.at? target start block = some i) : Coded program target [i] := by
  induction block generalizing start with
  | nil => cases hi
  | cons j block ih =>
    rw [Instruction.at?] at hi
    split at hi
    · rename_i htarget
      cases hi
      subst htarget
      exact ⟨h.1, trivial⟩
    · exact ih h.2 hi

namespace ListMachine

variable {s s' : ListMachine} {i : Instruction} {below : List Value} {v : Value}
  {target : Int64}

/-- The list machine has not ended and is not asked to stop. -/
def Running (s : ListMachine) : Prop :=
  s.fault = none ∧ s.exitCode = none ∧ s.terminating = false

/-- The state after an instruction that lies at the program counter. -/
def advance (s : ListMachine) (i : Instruction) : ListMachine :=
  (s.goTo (s.pc + .ofNat i.encode.length)).execute i

/-- One more instruction of the program, which neither halts nor writes the stack pointer. -/
inductive Advances (s : ListMachine) : ListMachine → Prop
  | of_coded {i : Instruction} (running : s.Running)
      (coded : Coded s.program s.pc.toInt.toNat [i]) (plain : i.isPlain = true) :
      Advances s (s.advance i)

/-- Any number of such instructions lead from the first state to the second. -/
def Reaches : ListMachine → ListMachine → Prop :=
  Relation.ReflTransGen Advances

instance : Trans Reaches Reaches Reaches :=
  ⟨Relation.ReflTransGen.trans⟩

/-- The next instruction of code whose place in the program is known. -/
theorem reaches_of_at? {start : Nat} {block : List Instruction} (hrun : s.Running)
    (hcode : Coded s.program start block)
    (hi : Instruction.at? s.pc.toInt.toNat start block = some i) (hplain : i.isPlain = true)
    (h : s.advance i = s') : s.Reaches s' :=
  .single (h ▸ .of_coded hrun (hcode.of_at? hi) hplain)

/-! ## Instructions -/

section Rules

variable {width : Nat}

theorem advance_of_length (h : i.encode.length = width) :
    s.advance i = (s.goTo (s.pc + .ofNat width)).execute i := by
  rw [advance, h]

theorem withLast_of_concat (h : s.stack = below ++ [v]) (op : Opcode)
    (go : Value → ListMachine) : s.withLast op go = go v := by
  simp [withLast, h]

theorem pop_of_concat (h : s.stack = below ++ [v]) : s.pop = s.withStack below := by
  simp [pop, h]

theorem advance_pushInt (hroom : s.stack.length < s.capacity) (n : Int64) :
    s.advance (.pushInt n) = { s with pc := s.pc + 9, stack := s.stack ++ [.int n] } := by
  rw [advance_of_length (Instruction.length_encode_pushInt n)]
  exact if_pos hroom

theorem advance_pushRegister (hroom : s.stack.length < s.capacity) (r : Fin 10) :
    s.advance (.pushRegister (.general r)) =
      { s with pc := s.pc + 2, stack := s.stack ++ [s.general.get r] } :=
  if_pos hroom

theorem advance_pop (h : s.stack = below ++ [v]) :
    s.advance .pop = { s with pc := s.pc + 1, stack := below } := by
  have hs : (s.goTo (s.pc + 1)).stack = below ++ [v] := h
  exact (withLast_of_concat hs _ _).trans (pop_of_concat hs)

theorem advance_popRegister (h : s.stack = below ++ [v]) (r : Fin 10) :
    s.advance (.popRegister (.general r)) =
      { s with pc := s.pc + 2, stack := below, general := s.general.set r v r.isLt } := by
  have hs : (s.goTo (s.pc + 2)).stack = below ++ [v] := h
  calc s.advance (.popRegister (.general r))
    _ = (s.goTo (s.pc + 2)).pop.write (.general r) v := withLast_of_concat hs _ _
    _ = ((s.goTo (s.pc + 2)).withStack below).write (.general r) v := by rw [pop_of_concat hs]

theorem advance_arithmetic (op : Arithmetic) {left right result : Int64}
    (h : s.stack = below ++ [.int left, .int right])
    (hresult : op.result? left right = some result) :
    s.advance (.arithmetic op) =
      { s with pc := s.pc + 1, stack := below ++ [.int result] } := by
  have hs : (s.goTo (s.pc + 1)).stack = below ++ [.int left, .int right] := h
  have hexact : ¬ (op = .div ∧ right = 0) := fun hzero => by
    rw [Arithmetic.result?_of_zero hzero] at hresult
    cases hresult
  have hcalculate : calculate op (.int left) (.int right) = .ok (.int result) := by
    rw [Arithmetic.result?_eq_exact hexact] at hresult
    rw [calculate, if_neg hexact, ← Option.some.inj hresult]
  calc s.advance (.arithmetic op)
    _ = (s.goTo (s.pc + 1)).combine op.opcode (calculate op) :=
      advance_of_length (Instruction.length_encode_arithmetic op)
    _ = (s.goTo (s.pc + 1)).withStack (below ++ [.int result]) := by
      rw [combine_of_two hs, hcalculate]

theorem advance_setInt (r : Fin 10) (n : Int64) :
    s.advance (.setInt (.general r) n) =
      { s with pc := s.pc + 10, general := s.general.set r (.int n) r.isLt } := by
  rw [advance_of_length (Instruction.length_encode_setInt _ n)]
  rfl

theorem advance_jump (h : s.isAddress target = true) :
    s.advance (.jump target) = s.goTo target :=
  if_pos h

theorem advance_call (h : s.isAddress target = true) :
    s.advance (.call target) =
      { s with pc := target, rt := s.pc + 9, fp := .ofNat s.stack.length } := by
  rw [advance_of_length (Instruction.length_encode_call target)]
  exact if_pos h

theorem advance_ret (h : s.isAddress s.rt = true) : s.advance .ret = s.goTo s.rt :=
  if_pos h

theorem advance_param {offset : Int64} (h : s.element? (s.fp - offset) = some v) (r : Fin 10) :
    s.advance (.param (.general r) offset) =
      { s with pc := s.pc + 10, general := s.general.set r v r.isLt } := by
  have hv : (s.goTo (s.pc + 10)).element? ((s.goTo (s.pc + 10)).fp - offset) = some v := h
  rw [advance_of_length (Instruction.length_encode_param _ offset)]
  change (s.goTo (s.pc + 10)).param (.general r) offset = _
  rw [param, hv]
  rfl

theorem advance_compare {left right : Fin 10} {i j : Int64} (hi : s.general.get left = .int i)
    (hj : s.general.get right = .int j) :
    s.advance (.compare (.general left) (.general right)) =
      { s with pc := s.pc + 3, flag := Ord.compare i.toInt j.toInt } := by
  have hleft : (s.goTo (s.pc + 3)).registers.get (.general left) = .int i := hi
  have hright : (s.goTo (s.pc + 3)).registers.get (.general right) = .int j := hj
  change (s.goTo (s.pc + 3)).compare (.general left) (.general right) = _
  rw [compare, hleft, hright]
  rfl

theorem advance_jumpFlag_of_holds {c : Condition} (hc : s.flagged c = true)
    (h : s.isAddress target = true) : s.advance (.jumpFlag c target) = s.goTo target := by
  rw [advance_of_length (Instruction.length_encode_jumpFlag c target)]
  exact (if_pos hc).trans (if_pos h)

theorem advance_jumpFlag_of_not_holds {c : Condition} (hc : s.flagged c = false)
    (target : Int64) : s.advance (.jumpFlag c target) = s.goTo (s.pc + 9) := by
  rw [advance_of_length (Instruction.length_encode_jumpFlag c target)]
  exact if_neg (Bool.eq_false_iff.1 hc)

theorem advance_printRegister (h : ∀ n, s.output.fits n = true) (r : Fin 10) :
    s.advance (.printRegister (.general r)) =
      { s with
        pc := s.pc + 2
        output := s.output.write (Utf8.encode ((s.general.get r).render ++ ['\n'])) } :=
  if_pos (h _)

end Rules

end ListMachine

/-! ## Machines -/

namespace Machine

variable {program : Bytes} {capacity : Nat} {m : Machine} {s s' : ListMachine}
  {i : Instruction}

theorem Bounded.executes_listed (hsize : program.length < 2 ^ 63)
    (hm : m.Bounded program capacity) (hrun : m.listed.Running)
    (h : Coded m.listed.program m.listed.pc.toInt.toNat [i]) : m.Executes i := by
  obtain ⟨hfault, hexit, hterm⟩ := hrun
  have hprogram : m.listed.program = program := by
    change m.memory.code.toList = program
    rw [hm.code]
  rw [hprogram] at h
  exact hm.executes_of_coded hsize ⟨hfault, hexit, hterm⟩ hm.toInt_pc h

/-- The list machine executes the same instruction, from behind it. -/
theorem Bounded.step_listed_of_executes (hsize : program.length < 2 ^ 63)
    (hm : m.Bounded program capacity) (h : m.Executes i) :
    m.listed.step = m.listed.resume (.ok i (m.listed.pc + .ofNat i.encode.length)) := by
  have hready := hm.ready_of_executes h
  obtain ⟨-, -, hgo, pc, hdecoded⟩ := h
  have hpc := hready.toInt_of_decode_eq_ok hsize hdecoded
  rw [hready.step_listed hgo, hdecoded, Word.eq_add_ofNat hpc]
  rfl

variable (hsize : program.length < 2 ^ 63) (hcap : capacity < 2 ^ 63)
include hsize hcap

/-- The machine takes a step for every instruction of the chain. By induction on the chain
    it then lists as the state at its end. -/
theorem Bounded.exists_steps_of_reaches (hm : m.Bounded program capacity)
    (h : m.listed.Reaches s) :
    ∃ k, m.replies k = List.replicate k (.ok .running) ∧ (m.afterSteps k).listed = s := by
  induction h with
  | refl => exact ⟨0, rfl, rfl⟩
  | tail _ hadvances ih =>
    obtain ⟨k, hreplies, rfl⟩ := ih
    obtain @⟨i, hrun, hcoded, hplain⟩ := hadvances
    obtain ⟨hcode, hsp⟩ := Instruction.isPlain_iff.1 hplain
    have hk := hm.afterSteps hsize hcap k
    have hexecutes := hk.executes_listed hsize hrun hcoded
    refine ⟨k + 1, ?_, ?_⟩
    · rw [replies_succ, hreplies, hk.step_of_not_halt hsize hcap hexecutes hcode,
        List.replicate_succ']
      rfl
    · rw [afterSteps_succ, hk.listed_after_step hsize hcap hexecutes hsp hcode]
      rfl

/-- A step that executes `HALT` returns the exit code and changes nothing else. -/
theorem Bounded.step_of_halt {code : UInt8} (hm : m.Bounded program capacity)
    (h : m.Executes (.halt code)) :
    ∃ m', m.step = .ok (.halted code) m' ∧
      m'.Matches ((m.listed.goTo (m.listed.pc + 2)).halt code) := by
  have hspares : m.SparesSp := by
    intro i hi
    rw [hi.unique h]
    exact nofun
  have hlists := hm.listsAs_step hsize hcap hspares
  rw [hm.step_listed_of_executes hsize h] at hlists
  have hm' := hm.after hsize hcap .step
  rw [Machine.after] at hm'
  cases hstep : m.step with
  | error a m' =>
    rw [hstep] at hlists
    cases a <;> exact hlists.elim
  | ok status m' =>
    rw [hstep] at hlists hm'
    obtain ⟨rfl, hlisted⟩ := hlists
    refine ⟨m', rfl, ?_⟩
    change m'.listed = (m.listed.goTo (m.listed.pc + 2)).halt code at hlisted
    rw [← hlisted]
    exact InBounds.matches_listed (Bounded.toInBounds hm')

/-- A run whose chain of instructions ends in front of a `HALT` returns its exit code. -/
theorem Bounded.runsTo_of_reaches {code : UInt8} (hm : m.Bounded program capacity)
    (h : m.listed.Reaches s) (hrun : s.Running)
    (hcoded : Coded s.program s.pc.toInt.toNat [.halt code]) :
    ∃ m', m.RunsTo (.ok code m') ∧ m'.Matches ((s.goTo (s.pc + 2)).halt code) := by
  obtain ⟨k, hreplies, rfl⟩ := hm.exists_steps_of_reaches hsize hcap h
  have hk := hm.afterSteps hsize hcap k
  obtain ⟨m', hstep, hmatches⟩ :=
    hk.step_of_halt hsize hcap (hk.executes_listed hsize hrun hcoded)
  have hlast : (m.afterSteps k).run 1 =
      .ok (some code) { m' with journal := m'.journal.add (.halted code) } := by
    rw [run_succ, hstep]
  refine ⟨_, (runsTo_afterSteps k fun reply hreply => ?_).1 ⟨1, hlast⟩, { hmatches with }⟩
  rw [hreplies] at hreply
  exact ⟨_, List.eq_of_mem_replicate hreply⟩

end Machine

end StackMachine
