-- SUMMARY: Parameters are addressed as exactly as if the frame pointer were an integer.
import StackMachine.Proofs.Lockstep
import StackMachine.Proofs.Provenance
import StackMachine.Proofs.Runs

/-!
# Parameters

`PARAM` copies the slot that lies so many below the frame. The frame pointer can be any
word, so the subtraction may wrap around. It never wraps onto a live slot: an offset has
56 bits and a stack fewer than `2 ^ 58` slots, so a difference that needs more than 64
bits comes out far away from the stack.
-/

namespace StackMachine

/-- The difference of a word and an integer of a slot is exact, or it is below zero where
    the exact one is too large, or far above zero where the exact one is too small. -/
theorem Word.toInt_sub_cases (w : Int64) {d : Int64} (hd : Slot.Fits d.toInt) :
    (w - d).toInt = w.toInt - d.toInt ∨
    ((w - d).toInt < 0 ∧ 2 ^ 58 ≤ w.toInt - d.toInt) ∨
    (2 ^ 58 ≤ (w - d).toInt ∧ w.toInt - d.toInt < 0) := by
  have hlow := w.le_toInt
  have hhigh := w.toInt_lt
  obtain ⟨hfirst, hlast⟩ := Slot.fits_iff.1 hd
  rw [Int64.toInt_sub, Int.bmod_def]
  omega

theorem Instruction.length_encode_param (r : Register) (offset : Int64) :
    (param r offset).encode.length = 10 := by
  simp [encode, operands, Operand.encode, Slot.width]

namespace Machine

variable {program : Bytes} {capacity : Nat} {m : Machine} {r : Register} {offset : Int64}

/-! ## Operands -/

/-- The offset of a parameter comes from a slot. -/
theorem Bounded.fits_of_param (hsize : program.length < 2 ^ 63) (hm : m.Bounded program capacity)
    (h : m.Executes (.param r offset)) : Slot.Fits offset.toInt := by
  have hready := hm.ready_of_executes h
  obtain ⟨-, -, -, pc, hdecoded⟩ := h
  have hform := hready.ofKind_of_decode_eq_ok hsize hdecoded
  obtain ⟨_, hrest⟩ := List.forall₂_cons.1 hform
  obtain ⟨hkind, -⟩ := List.forall₂_cons.1 hrest
  cases hkind with
  | integer hfits => exact hfits

/-- The parameter is the slot that exact subtraction finds, or there is none. -/
theorem InBounds.argument?_eq_exact (hm : m.InBounds program capacity) (hcap : capacity < 2 ^ 58)
    (hfits : Slot.Fits offset.toInt) :
    m.argument? offset =
      if 0 ≤ m.registers.fp.toInt - offset.toInt then
        m.live[(m.registers.fp.toInt - offset.toInt).toNat]?
      else none := by
  have hlength := hm.length_live_le
  rw [hm.argument?_eq]
  obtain hexact | ⟨hwrapped, hexact⟩ | ⟨hwrapped, hexact⟩ :=
    Word.toInt_sub_cases m.registers.fp hfits
  · rw [hexact]
    split_ifs with hneg hpos
    · omega
    · rfl
    · rfl
    · omega
  · rw [if_pos hwrapped, if_pos (by omega), List.getElem?_eq_none (by omega)]
  · rw [if_neg (by omega), if_neg (by omega), List.getElem?_eq_none (by omega)]

/-! ## Writing a register -/

/-- The fault of writing the value into the register, if it is refused. -/
def refusal? (m : Machine) (r : Register) (v : Value) : Option Fault :=
  match r, v with
  | .pc, .int target => if m.memory.inCode target then none else some (.jumpOutOfRange target)
  | .sp, .int sp => if Action.isOffStack m sp then some (.stackPointerOutOfRange sp) else none
  | .general _, _ | .fp, .int _ | .rt, .int _ => none
  | r, .bytes _ => some (.specialRegister r)

end Machine

/-- Writing a register is refused, or the register takes the value. -/
theorem Action.wp_setRegister {R : Unit → Machine → Prop} {T : Trap → Machine → Prop}
    (r : Register) (v : Value) (m : Machine) :
    wp (setRegister r v) R T m ↔
      match m.refusal? r v with
      | some f => T (.fault f) m
      | none => ∀ registers, m.registers.set? r v = some registers →
        R () { m with registers } := by
  cases r with
  | general i => simp [wp_setRegister_of_ne, Machine.refusal?, RegisterFile.set?]
  | pc =>
    cases v with
    | bytes b => rfl
    | int target =>
      change wp (jump target) R T m ↔ _
      rw [wp_jump, Machine.refusal?]
      by_cases hin : m.memory.inCode target = true <;>
        simp [hin, RegisterFile.set?, RegisterFile.updateSpecial?]
  | sp =>
    cases v with
    | bytes b => rfl
    | int sp =>
      rw [wp_setRegister_sp_int, Machine.refusal?]
      by_cases hoff : isOffStack m sp = true <;>
        simp [hoff, RegisterFile.set?, RegisterFile.updateSpecial?]
  | fp =>
    cases v <;> simp [wp_setRegister_of_ne, Machine.refusal?, RegisterFile.set?,
      RegisterFile.updateSpecial?]
  | rt =>
    cases v <;> simp [wp_setRegister_of_ne, Machine.refusal?, RegisterFile.set?,
      RegisterFile.updateSpecial?]

namespace Machine

variable {program : Bytes} {config : Config} {capacity : Nat} {m : Machine} {r : Register}
  {offset : Int64} {v : Value}

/-- A register other than the program counter and the stack pointer refuses a value for its
    type only. -/
theorem eq_specialRegister_of_refusal? {f : Fault} (hpc : r ≠ .pc) (hsp : r ≠ .sp)
    (h : m.refusal? r v = some f) (file : RegisterFile) :
    f = .specialRegister r ∧ file.set? r v = none := by
  cases r <;> cases v <;> simp_all [refusal?, RegisterFile.set?]

theorem refusal?_ne_paramOutOfRange (m : Machine) (r : Register) (v : Value) (index : Int64) :
    m.refusal? r v ≠ some (.paramOutOfRange index) := by
  cases r <;> cases v <;> simp [refusal?]

/-! ## Steps -/

/-- The step finds no live slot and faults, or the register refuses the value of the slot
    and the step faults, or the register takes the value. -/
theorem Bounded.step_of_param (hsize : program.length < 2 ^ 63) (hcap : capacity < 2 ^ 63)
    (hm : m.Bounded program capacity) (h : m.Executes (.param r offset)) :
    let passed := { m.registers with pc := m.registers.pc + 10 }
    (m.argument? offset = none → ∃ journal, m.step = .ok .running
      { m with
        registers := passed
        fault := some (.paramOutOfRange (m.registers.fp - offset))
        journal }) ∧
    ∀ v, m.argument? offset = some v →
      (∀ f, m.refusal? r v = some f → ∃ journal, m.step = .ok .running
        { m with registers := passed, fault := some f, journal }) ∧
      (m.refusal? r v = none → ∃ registers journal, passed.set? r v = some registers ∧
        m.step = .ok .running { m with registers, journal }) := by
  intro passed
  have hstep := hm.step_of_executes hsize hcap h
    (Q := fun m' => ∃ v registers journal, m.argument? offset = some v ∧
      m.refusal? r v = none ∧ passed.set? r v = some registers ∧
      m' = { m with registers, journal })
    (T := fun f m' => (∃ journal, m' = { m with registers := passed, journal }) ∧
      (m.argument? offset = none ∧ f = .paramOutOfRange (m.registers.fp - offset) ∨
        ∃ v, m.argument? offset = some v ∧ m.refusal? r v = some f)) ?_
  · obtain ⟨_, hstep, v, registers, journal, hv, htaken, hset, rfl⟩ |
      ⟨f, _, journal, hstep, ⟨_, rfl⟩, ⟨hnone, rfl⟩ | ⟨v, hv, hrefused⟩⟩ := hstep
    · rw [hv]
      refine ⟨nofun, fun _ heq => ?_⟩
      cases heq
      exact ⟨fun f hf => (nomatch htaken.symm.trans hf), fun _ => ⟨registers, journal, hset, hstep⟩⟩
    · rw [hnone]
      exact ⟨fun _ => ⟨journal, hstep⟩, nofun⟩
    · rw [hv]
      refine ⟨nofun, fun _ heq => ?_⟩
      cases heq
      refine ⟨fun _ hf => ?_, fun htaken => nomatch hrefused.symm.trans htaken⟩
      cases hrefused.symm.trans hf
      exact ⟨journal, hstep⟩
  · intro pc journal hnext hready
    rw [Instruction.length_encode_param] at hnext
    obtain rfl : pc = m.registers.pc + 10 := Word.eq_add_ofNat hnext
    change Action.wp (Action.param r offset >>= fun _ => pure none) _ _ _
    have hargument : (m.goTo (m.registers.pc + 10) journal).argument? offset =
      m.argument? offset := rfl
    have hrefusal (v : Value) : (m.goTo (m.registers.pc + 10) journal).refusal? r v =
      m.refusal? r v := rfl
    rw [Action.wp_bind, Action.wp_param_live hready, hargument]
    cases m.argument? offset with
    | none => exact ⟨_, rfl, ⟨journal, rfl⟩, .inl ⟨rfl, rfl⟩⟩
    | some v =>
      dsimp only
      rw [Action.wp_setRegister, hrefusal]
      cases hrefused : m.refusal? r v with
      | some f => exact ⟨f, rfl, ⟨journal, rfl⟩, .inr ⟨v, rfl, hrefused⟩⟩
      | none =>
        intro registers hset
        exact ⟨rfl, v, registers, journal, rfl, hrefused, hset, rfl⟩

/-- What the step leaves: a fault and nothing else new, or the value in the register. -/
theorem Bounded.after_param (hsize : program.length < 2 ^ 63) (hcap : capacity < 2 ^ 63)
    (hm : m.Bounded program capacity) (h : m.Executes (.param r offset)) :
    let m' := m.after .step
    (m.argument? offset = none →
      m'.fault = some (.paramOutOfRange (m.registers.fp - offset))) ∧
    ∀ v, m.argument? offset = some v → m'.fault = m.refusal? r v ∧
      (m.refusal? r v = none → m'.registers.get r = v ∧ m'.memory = m.memory ∧
        ∀ s, s ≠ r → s ≠ .pc → m'.registers.get s = m.registers.get s) := by
  obtain ⟨hnone, hsome⟩ := hm.step_of_param hsize hcap h
  intro m'
  refine ⟨fun hmissing => ?_, fun v hv => ?_⟩
  · obtain ⟨journal, hstep⟩ := hnone hmissing
    have hafter : m' = _ := after_step_of_eq_ok hstep
    rw [hafter]
  · obtain ⟨hrefused, htaken⟩ := hsome v hv
    cases hrefusal : m.refusal? r v with
    | some f =>
      obtain ⟨journal, hstep⟩ := hrefused f hrefusal
      have hafter : m' = _ := after_step_of_eq_ok hstep
      exact ⟨by rw [hafter], nofun⟩
    | none =>
      obtain ⟨registers, journal, hset, hstep⟩ := htaken hrefusal
      have hafter : m' = _ := after_step_of_eq_ok hstep
      rw [hafter]
      refine ⟨h.1, fun _ => ⟨RegisterFile.get_set? hset, rfl, fun s hs hpc => ?_⟩⟩
      exact (RegisterFile.get_set?_of_ne hset hs.symm).trans (Action.get_withPc hpc _ _)

/-- Addressing never wraps around. In every state that a machine with fewer than `2 ^ 58`
    slots can get into, a `PARAM` faults for its index exactly if the integer `$FP` less the
    offset is no index of the live stack. Otherwise it copies the live value of just this
    index: the register takes that value and nothing else changes, unless the register
    refuses the value, and then that is the fault. -/
theorem param_never_wraps (hsize : program.length < 2 ^ 63) (hstack : config.stackSize < 2 ^ 58)
    (hm : Reachable program config m) (h : m.Executes (.param r offset)) :
    let index := m.registers.fp.toInt - offset.toInt
    let m' := m.after .step
    m.step = .ok .running m' ∧
    ∃ stack, m.stack? = some stack ∧ m.registers.sp.toInt = stack.length ∧
      ((∃ w, m'.fault = some (.paramOutOfRange w)) ↔ ¬ (0 ≤ index ∧ index < stack.length)) ∧
      (0 ≤ index → index < stack.length → ∃ v, stack[index.toNat]? = some v ∧
        m'.fault = m.refusal? r v ∧
        (m.refusal? r v = none → m'.registers.get r = v ∧ m'.memory = m.memory ∧
          ∀ s, s ≠ r → s ≠ .pc → m'.registers.get s = m.registers.get s)) := by
  intro index m'
  have hcap : config.stackSize < 2 ^ 63 := by omega
  have hbounded := hm.bounded hsize hcap
  have hargument := hbounded.argument?_eq_exact hstack (hbounded.fits_of_param hsize h)
  change m.argument? offset = if 0 ≤ index then m.live[index.toNat]? else none at hargument
  obtain ⟨hnone, hsome⟩ := hbounded.after_param hsize hcap h
  have hinside (hlow : 0 ≤ index) (hhigh : index < m.live.length) :
      ∃ v, m.live[index.toNat]? = some v ∧ m.argument? offset = some v := by
    have hlt : index.toNat < m.live.length := by omega
    rw [hargument, if_pos hlow]
    exact ⟨_, List.getElem?_eq_getElem hlt, List.getElem?_eq_getElem hlt⟩
  have houtside (hout : ¬ (0 ≤ index ∧ index < m.live.length)) : m.argument? offset = none := by
    rw [hargument]
    split_ifs with hlow
    · exact List.getElem?_eq_none (by omega)
    · rfl
  refine ⟨hbounded.step_of_not_halt hsize hcap h rfl, m.live, hbounded.stack?_eq_live,
    hbounded.toInt_sp, ⟨?_, fun hout => ⟨_, hnone (houtside hout)⟩⟩, fun hlow hhigh => ?_⟩
  · rintro ⟨w, hw⟩ ⟨hlow, hhigh⟩
    obtain ⟨v, -, hv⟩ := hinside hlow hhigh
    exact m.refusal?_ne_paramOutOfRange r v w ((hsome v hv).1.symm.trans hw)
  · obtain ⟨v, hlive, hv⟩ := hinside hlow hhigh
    exact ⟨v, hlive, hsome v hv⟩

/-- The least word less one would wrap around to the greatest word. -/
theorem param_never_wraps_below_least :
    let program := [Instruction.pushInt (-2 ^ 54), .pushInt (2 ^ 9), .arithmetic .mul,
      .popRegister .fp, .param (.general 0) 1].flatMap (·.encode)
    let m := (ofProgram program { stackSize := 2 }).afterSteps 4
    m.registers.fp = Int64.minValue ∧ m.registers.fp - 1 = Int64.maxValue ∧
      ∃ w, (m.after .step).fault = some (.paramOutOfRange w) := by
  intro program m
  have hm : Reachable program { stackSize := 2 } m := Reachable.fresh.afterSteps 4
  have hparam : m.Executes (.param (.general 0) 1) := by decide +kernel
  have hfp : m.registers.fp = Int64.minValue := by decide +kernel
  obtain ⟨-, stack, -, -, hfault, -⟩ :=
    param_never_wraps (by decide +kernel) (by decide) hm hparam
  rw [hfp] at hfault ⊢
  refine ⟨rfl, by decide, hfault.2 ?_⟩
  rintro ⟨hlow, -⟩
  exact absurd hlow (by decide)

end Machine

end StackMachine
