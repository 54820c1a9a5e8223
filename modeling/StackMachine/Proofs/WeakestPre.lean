-- SUMMARY: Weakest preconditions of actions, with one law for each elementary action.
import StackMachine.Machine.Execute

/-!
# Weakest preconditions

`Action.wp x Q T` holds of a machine if the action `x` ends there with a result
and a machine that satisfy `Q`, or with a trap and a machine that satisfy `T`.
Actions are deterministic and always end, so every law is an equivalence.
-/

namespace StackMachine

namespace Action

def wp (x : Action α) (Q : α → Machine → Prop) (T : Trap → Machine → Prop) (m : Machine) : Prop :=
  match x m with
  | .ok a m' => Q a m'
  | .error t m' => T t m'

variable {Q : α → Machine → Prop} {T : Trap → Machine → Prop} {m : Machine}

/-! ## Composite actions -/

@[simp] theorem wp_pure (a : α) : wp (pure a) Q T m = Q a m := rfl

@[simp] theorem wp_throw (t : Trap) : wp (throw t : Action α) Q T m = T t m := rfl

@[simp] theorem wp_fail (f : Fault) : wp (fail f : Action α) Q T m = T (.fault f) m := rfl

@[simp] theorem wp_get {Q : Machine → Machine → Prop} : wp get Q T m = Q m m := rfl

@[simp] theorem wp_modify {Q : Unit → Machine → Prop} (f : Machine → Machine) :
    wp (modify f) Q T m = Q () (f m) := rfl

theorem bind_apply (x : Action α) (f : α → Action β) (m : Machine) :
    (x >>= f) m =
      match x m with
      | .ok a m => f a m
      | .error t m => .error t m := by
  simp only [Bind.bind, EStateM.bind]
  cases x m <;> rfl

@[simp] theorem wp_bind {Q : β → Machine → Prop} (x : Action α) (f : α → Action β) :
    wp (x >>= f) Q T m = wp x (fun a => wp (f a) Q T) T m := by
  simp only [wp, bind_apply]
  cases x m <;> rfl

@[simp] theorem wp_discard {Q : Unit → Machine → Prop} (x : Action α) :
    wp (discard x) Q T m = wp x (fun _ => Q ()) T m := by
  simp only [wp, discard, Functor.discard, Functor.mapConst, Function.comp, EStateM.map]
  cases x m <;> rfl

theorem wp.mono {Q' : α → Machine → Prop} {T' : Trap → Machine → Prop} {x : Action α}
    (h : wp x Q T m) (hQ : ∀ a m', Q a m' → Q' a m') (hT : ∀ t m', T t m' → T' t m') :
    wp x Q' T' m := by
  unfold wp at h ⊢
  cases hx : x m with
  | ok a m' => exact hQ a m' (by simpa only [hx] using h)
  | error t m' => exact hT t m' (by simpa only [hx] using h)

theorem wp.and {Q' : α → Machine → Prop} {T' : Trap → Machine → Prop} {x : Action α}
    (h : wp x Q T m) (h' : wp x Q' T' m) :
    wp x (fun a m' => Q a m' ∧ Q' a m') (fun t m' => T t m' ∧ T' t m') m := by
  unfold wp at h h' ⊢
  cases hx : x m with
  | ok a m' => exact ⟨by simpa only [hx] using h, by simpa only [hx] using h'⟩
  | error t m' => exact ⟨by simpa only [hx] using h, by simpa only [hx] using h'⟩

/-- What holds of every result holds of the one that there is. -/
theorem wp.of_eq_ok {x : Action α} {a : α} {m' : Machine} (h : wp x Q T m)
    (hx : x m = .ok a m') : Q a m' := by
  unfold wp at h
  rwa [hx] at h

theorem wp.of_eq_error {x : Action α} {t : Trap} {m' : Machine} (h : wp x Q T m)
    (hx : x m = .error t m') : T t m' := by
  unfold wp at h
  rwa [hx] at h

/-! ## Elementary actions -/

section Elementary

variable {Q : Value → Machine → Prop} {R : Unit → Machine → Prop}

theorem wp_top (op : Opcode) :
    wp (top op) Q T m ↔
      (m.height = 0 → T (.fault (.stackUnderflow op)) m) ∧
      (m.height ≠ 0 →
        match m.memory.slot? (m.height - 1) with
        | none => T .outOfBounds m
        | some v => Q v m) := by
  unfold wp top
  by_cases h : m.height = 0
  · simp [h]
  · cases hv : m.memory.slot? (m.height - 1) <;> simp [h]

theorem wp_pop (op : Opcode) :
    wp (pop op) Q T m ↔
      (m.height = 0 → T (.fault (.stackUnderflow op)) m) ∧
      (m.height ≠ 0 →
        match m.memory.slot? (m.height - 1) with
        | none => T .outOfBounds m
        | some v => Q v { m with
            memory := m.memory.put (m.height - 1) .zero
            registers := { m.registers with sp := m.registers.sp - 1 } }) := by
  unfold wp pop Memory.take?
  by_cases h : m.height = 0
  · simp [h]
  · cases hv : m.memory.slot? (m.height - 1) <;> simp [h]

/-- The slot that a push writes is there if there is room. -/
theorem push_apply (v : Value) (m : Machine) :
    push v m =
      if m.height < m.memory.capacity then
        .ok () { m with
          memory := m.memory.put m.height v
          registers := { m.registers with sp := m.registers.sp + 1 }
          journal := m.journal.add (.stored m.height v) }
      else .error (.fault .stackOverflow) m := by
  unfold push
  split
  · rename_i hroom
    rw [Memory.put?_of_lt hroom]
  · rfl

theorem wp_push (v : Value) :
    wp (push v) R T m ↔
      (m.height < m.memory.capacity → R () { m with
        memory := m.memory.put m.height v
        registers := { m.registers with sp := m.registers.sp + 1 }
        journal := m.journal.add (.stored m.height v) }) ∧
      (¬ m.height < m.memory.capacity → T (.fault .stackOverflow) m) := by
  unfold wp
  rw [push_apply]
  by_cases h : m.height < m.memory.capacity <;> simp [h]

/-- The two topmost slots are there if the height is one that the stack can have. -/
theorem swapTop_apply (m : Machine) :
    swapTop m =
      if m.height < 2 then .error (.fault (.stackUnderflow .swap)) m
      else if m.height ≤ m.memory.capacity then
        .ok () { m with memory := m.memory.swap (m.height - 1) (m.height - 2) }
      else .error .outOfBounds m := by
  unfold swapTop
  by_cases htwo : m.height < 2
  · rw [if_pos htwo, if_pos htwo]
  · rw [if_neg htwo, if_neg htwo]
    by_cases hle : m.height ≤ m.memory.capacity
    · rw [if_pos hle, Memory.swap?_of_lt (by omega) (by omega)]
    · rw [if_neg hle, Memory.swap?_of_le (by omega)]

theorem wp_swapTop :
    wp swapTop R T m ↔
      (m.height < 2 → T (.fault (.stackUnderflow .swap)) m) ∧
      (¬ m.height < 2 → m.height ≤ m.memory.capacity →
        R () { m with memory := m.memory.swap (m.height - 1) (m.height - 2) }) ∧
      (¬ m.height < 2 → ¬ m.height ≤ m.memory.capacity → T .outOfBounds m) := by
  unfold wp
  rw [swapTop_apply]
  by_cases h : m.height < 2
  · simp [h]
  · by_cases hc : m.height ≤ m.memory.capacity <;> simp [h, hc]

theorem wp_checkTarget (target : Int64) :
    wp (checkTarget target) R T m ↔
      (m.memory.inCode target = true → R () m) ∧
      (¬ m.memory.inCode target = true → T (.fault (.jumpOutOfRange target)) m) := by
  unfold wp checkTarget
  by_cases h : m.memory.inCode target = true <;> simp [h]

theorem wp_jump (target : Int64) :
    wp (jump target) R T m ↔
      (m.memory.inCode target = true →
        R () { m with registers := { m.registers with pc := target } }) ∧
      (¬ m.memory.inCode target = true → T (.fault (.jumpOutOfRange target)) m) := by
  unfold jump
  rw [wp_bind, wp_checkTarget]
  rfl

theorem wp_printLine (line : Text) :
    wp (printLine line) R T m ↔
      let printed := { m with output := m.output.write (Utf8.encode (line ++ ['\n'])) }
      (m.output.fits (Utf8.encode (line ++ ['\n'])).length = true → R () printed) ∧
      (¬ m.output.fits (Utf8.encode (line ++ ['\n'])).length = true →
        T (.fault .output) printed) := by
  unfold wp printLine
  by_cases h : m.output.fits (Utf8.encode (line ++ ['\n'])).length = true <;> simp [h]

theorem wp_setRegister_sp_int (sp : Int64) :
    wp (setRegister .sp (.int sp)) R T m ↔
      (isOffStack m sp = true → T (.fault (.stackPointerOutOfRange sp)) m) ∧
      (¬ isOffStack m sp = true → R () { m with registers := { m.registers with sp } }) := by
  unfold wp setRegister
  by_cases h : isOffStack m sp = true <;> simp [h]

/-- The program counter and the stack pointer apart, writing a register checks
    nothing but the kind of the value. -/
theorem setRegister_of_ne {r : Register} {v : Value} (hpc : r ≠ .pc) (hsp : r ≠ .sp)
    (m : Machine) :
    setRegister r v m =
      match m.registers.set? r v with
      | none => .error (.fault (.specialRegister r)) m
      | some registers => .ok () { m with registers } := by
  cases r with
  | pc => exact absurd rfl hpc
  | sp => exact absurd rfl hsp
  | general i => rfl
  | fp => cases v <;> rfl
  | rt => cases v <;> rfl

theorem wp_setRegister_of_ne {r : Register} {v : Value} (hpc : r ≠ .pc) (hsp : r ≠ .sp) :
    wp (setRegister r v) R T m ↔
      match m.registers.set? r v with
      | none => T (.fault (.specialRegister r)) m
      | some registers => R () { m with registers } := by
  unfold wp
  rw [setRegister_of_ne hpc hsp]
  cases m.registers.set? r v <;> rfl

end Elementary

end Action
end StackMachine
