-- SUMMARY: Arithmetic is exact modulo 2 ^ 64, and when it faults.
import StackMachine.Proofs.Lockstep
import StackMachine.Proofs.Runs

/-!
# Exact arithmetic

An arithmetic operation computes modulo `2 ^ 64`: of all words its result is the one
that is congruent to the exact integer. It fails for lack of operands, for operands that
are no integers, and for a divisor of zero, in this order, and never for lack of room.
-/

namespace StackMachine

/-! ## Words -/

/-- There is one word in each class of integers modulo `2 ^ 64`. -/
theorem Word.eq_ofInt_iff {w : Int64} {v : Int} : w = .ofInt v ↔ w.toInt ≡ v [ZMOD 2 ^ 64] := by
  constructor
  · rintro rfl
    rw [Int64.toInt_ofInt]
    exact Int.bmod_emod
  · intro h
    have hbmod : w.toInt.bmod (2 ^ 64) = v.bmod (2 ^ 64) := by
      rw [← Int.emod_bmod, ← Int.emod_bmod v]
      exact congrArg (Int.bmod · (2 ^ 64)) h
    rw [← Int64.toInt_inj, Int64.toInt_ofInt, ← Int64.ofInt_toInt w, Int64.toInt_ofInt]
    exact hbmod

/-! ## List machines -/

namespace ListMachine

variable {s : ListMachine} {op : Arithmetic} {left right : Value}

theorem calculate_of_bytes {b : Bytes} (h : left = .bytes b ∨ right = .bytes b) :
    calculate op left right = .error (.typeMismatch op.opcode .integers) := by
  obtain rfl | rfl := h
  · rfl
  · cases left <;> rfl

theorem calculate_of_zero {left right : Int64} (h : op = .div ∧ right = 0) :
    calculate op (.int left) (.int right) = .error (.divisionByZero op.opcode) := by
  obtain ⟨rfl, rfl⟩ := h
  rfl

theorem calculate_of_exact {left right : Int64} (h : ¬ (op = .div ∧ right = 0)) :
    calculate op (.int left) (.int right) =
      .ok (.int (.ofInt (op.exact left.toInt right.toInt))) :=
  if_neg h

theorem calculate_ne_overflow :
    calculate op left right ≠ .error .stackOverflow := by
  unfold calculate
  split
  · split <;> exact nofun
  · exact nofun

/-- Where two values were there is room for one. -/
theorem fault_combine_ne_overflow (h : s.fault = none) :
    (s.combine op.opcode (calculate op)).fault ≠ some .stackOverflow := by
  unfold combine
  split
  · split
    · exact fun hfault => nomatch h.symm.trans hfault
    · rename_i hresult
      intro hfault
      cases hfault
      exact calculate_ne_overflow hresult
  · exact nofun

end ListMachine

/-! ## Steps -/

namespace Machine

variable {program : Bytes} {config : Config} {m : Machine} {op : Arithmetic}

/-- What an arithmetic operation comes to, in every state that a machine can get into. With
    fewer than two values on the stack it underflows. If one of the two topmost values is a
    byte string the types do not match. A division by zero is one. In all other cases, also
    if the stack is full, it replaces the two values by one and leaves those below them
    alone. The new value is the only word that is congruent to the exact result modulo
    `2 ^ 64`. So the stack never overflows, and no access lies outside of it. -/
theorem arithmetic_is_exact (hsize : program.length < 2 ^ 63) (hstack : config.stackSize < 2 ^ 63)
    (hm : Reachable program config m) (h : m.Executes (.arithmetic op)) :
    let m' := m.after .step
    m.step = .ok .running m' ∧ m'.fault ≠ some .stackOverflow ∧
    ∃ stack, m.stack? = some stack ∧ m.registers.sp.toInt = stack.length ∧
      (stack.length < 2 → m'.fault = some (.stackUnderflow op.opcode)) ∧
      (∀ (below : List Value) (left right : Value) (b : Bytes),
        stack = below ++ [left, right] → (left = .bytes b ∨ right = .bytes b) →
          m'.fault = some (.typeMismatch op.opcode .integers)) ∧
      ∀ (below : List Value) (left right : Int64),
        stack = below ++ [Value.int left, .int right] →
        (op = .div ∧ right = 0 → m'.fault = some (.divisionByZero .div)) ∧
        (¬ (op = .div ∧ right = 0) → m'.fault = none ∧ m'.exitCode = none ∧
          m'.registers.sp.toInt = m.registers.sp.toInt - 1 ∧
          ∃ result, m'.stack? = some (below ++ [Value.int result]) ∧
            ∀ w : Int64, w = result ↔ w.toInt ≡ op.exact left.toInt right.toInt [ZMOD 2 ^ 64]) := by
  have hbounded := hm.bounded hsize hstack
  have hafter := (hm.after .step).bounded hsize hstack
  have hlisted := hbounded.listed_after_step hsize hstack h nofun rfl
  change _ = ListMachine.combine _ _ _ at hlisted
  intro m'
  have hfault' : m'.fault = m'.listed.fault := rfl
  refine ⟨hbounded.step_of_not_halt hsize hstack h rfl, ?_, m.live, hbounded.stack?_eq_live,
    hbounded.toInt_sp, fun hshort => ?_, fun below left right b hlive hbytes => ?_,
    fun below left right hlive => ⟨fun hzero => ?_, fun hexact => ?_⟩⟩
  · rw [hfault', hlisted]
    exact ListMachine.fault_combine_ne_overflow h.1
  · rw [hfault', hlisted, ListMachine.combine_of_lt hshort]
    rfl
  · rw [hfault', hlisted, ListMachine.combine_of_two hlive, ListMachine.calculate_of_bytes hbytes]
    rfl
  · rw [hfault', hlisted, ListMachine.combine_of_two hlive, ListMachine.calculate_of_zero hzero,
      hzero.1]
    rfl
  · rw [ListMachine.combine_of_two hlive, ListMachine.calculate_of_exact hexact] at hlisted
    have hstack' : m'.live = below ++ [Value.int (.ofInt (op.exact left.toInt right.toInt))] :=
      congrArg ListMachine.stack hlisted
    refine ⟨(congrArg ListMachine.fault hlisted).trans h.1,
      (congrArg ListMachine.exitCode hlisted).trans h.2.1, ?_, _,
      hafter.stack?_eq_live.trans (congrArg some hstack'), fun w => Word.eq_ofInt_iff⟩
    have hlength : m.live.length = m'.live.length + 1 := by simp [hstack', hlive]
    rw [hafter.toInt_sp, hbounded.toInt_sp, hlength]
    change (m'.live.length : Int) = _
    omega

/-- The one quotient that is too large, on a full stack: the least word is its own
    negative. -/
theorem arithmetic_is_exact_of_least :
    let program := [Instruction.pushInt (-2 ^ 54), .pushInt (2 ^ 9), .arithmetic .mul,
      .pushInt (-1), .arithmetic .div].flatMap (·.encode)
    let m := (ofProgram program { stackSize := 2 }).afterSteps 4
    let least : Int64 := .minValue
    m.stack? = some [.int least, .int (-1)] ∧ (m.after .step).fault = none ∧
      (m.after .step).stack? = some [.int least] := by
  intro program m least
  have hm : Reachable program { stackSize := 2 } m := Reachable.fresh.afterSteps 4
  have hdiv : m.Executes (.arithmetic .div) := by decide +kernel
  have hlive : m.stack? = some [.int least, .int (-1)] := by decide +kernel
  obtain ⟨-, -, stack, hstack, -, -, -, hints⟩ :=
    arithmetic_is_exact (by decide +kernel) (by decide) hm hdiv
  obtain rfl := Option.some.inj (hlive.symm.trans hstack)
  obtain ⟨hfault, -, -, result, hresult, hexact⟩ := (hints [] least (-1) rfl).2 (by decide)
  obtain rfl : least = result := (hexact least).2 (by decide)
  exact ⟨hlive, hfault, hresult⟩

end Machine

end StackMachine
