-- SUMMARY: Actions that keep an invariant, and what an instruction needs for it.
import StackMachine.Proofs.WeakestPre

/-!
# Invariants

`Action.Keeps I E x` says that the action `x` keeps the invariant `I` in whatever
way it ends, and that all its traps satisfy `E`. An instruction is a combination
of few elementary actions, so it keeps what these keep: `Action.Closed` lists
what an instruction asks of an invariant, and `Action.Closed.execute` draws the
conclusion once for all invariants.
-/

namespace StackMachine

namespace Instruction

/-- The register that the instruction names as the one to write. -/
def destination? : Instruction → Option Register
  | popRegister r | store r | setInt r _ | setString r _ | param r _ => some r
  | _ => none

/-- Does the instruction, if anything, do nothing but continue elsewhere? -/
def isJump : Instruction → Bool
  | jump _ | jumpTop _ _ | jumpRegister _ | jumpFlag _ _ | ret => true
  | _ => false

/-- Does the instruction, if it completes, print a line? -/
def prints : Instruction → Bool
  | print | printRegister _ | dump | dumpRegisters => true
  | _ => false

end Instruction

namespace Action

/-- Every ending of the action keeps `I`, and every trap is one that `E` admits. -/
def Keeps (I : Machine → Prop) (E : Trap → Prop) (x : Action α) : Prop :=
  ∀ m, I m → wp x (fun _ m' => I m') (fun t m' => E t ∧ I m') m

namespace Keeps

variable {I : Machine → Prop} {E : Trap → Prop}

theorem pure (a : α) : Keeps I E (Pure.pure a : Action α) := fun _ hm => hm

theorem fail {f : Fault} (hE : E (.fault f)) : Keeps I E (Action.fail f : Action α) :=
  fun _ hm => ⟨hE, hm⟩

theorem bind {x : Action α} {f : α → Action β} (hx : Keeps I E x)
    (hf : ∀ a, Keeps I E (f a)) : Keeps I E (x >>= f) := by
  intro m hm
  rw [wp_bind]
  exact (hx m hm).mono (fun a m' hm' => hf a m' hm') fun _ _ ht => ht

theorem discard {x : Action α} (hx : Keeps I E x) : Keeps I E (Functor.discard x) := by
  intro m hm
  rw [wp_discard]
  exact hx m hm

theorem ite {c : Prop} [Decidable c] {x y : Action α} (hx : c → Keeps I E x)
    (hy : ¬ c → Keeps I E y) : Keeps I E (if c then x else y) := by
  split
  · rename_i hc
    exact hx hc
  · rename_i hc
    exact hy hc

/-- An action that begins by looking at the machine. -/
theorem get_bind {f : Machine → Action β}
    (hf : ∀ m, I m → wp (f m) (fun _ m' => I m') (fun t m' => E t ∧ I m') m) :
    Keeps I E (get >>= f) := by
  intro m hm
  rw [wp_bind]
  exact hf m hm

theorem modify {f : Machine → Machine} (hf : ∀ m, I m → I (f m)) :
    Keeps I E (modify f : Action Unit) := hf

theorem register (r : Register) : Keeps I E (Action.register r) := fun _ hm => hm

end Keeps

/-! ## Instructions -/

/-- What an instruction asks of an invariant: that the elementary actions it may
    perform keep it. No access may lie outside the stack, unless that is admitted. -/
structure Closed (I : Machine → Prop) (E : Trap → Prop) (i : Instruction) : Prop where
  fault : ∀ f, E (.fault f)
  live : ∀ m, I m → m.height ≤ m.memory.capacity ∨ E .outOfBounds
  pop : ∀ op, Keeps I E (pop op)
  push : ∀ v, Keeps I E (push v)
  swap : Keeps I E swapTop
  write : ∀ r, i.destination? = some r → ∀ v, Keeps I E (setRegister r v)
  jump : i.isJump → ∀ target, Keeps I E (jump target)
  call : ∀ target, i = .call target → Keeps I E (call target)
  print : i.prints → ∀ line, Keeps I E (printLine line)
  flag : ∀ m flag, I m → I { m with flag }
  trace : Keeps I E toggleTracing

namespace Closed

variable {I : Machine → Prop} {E : Trap → Prop} {i : Instruction} (h : Closed I E i)
include h

/-- A live slot is there, or its absence is admitted. -/
theorem slot {m : Machine} (hm : I m) {k : Nat} (hk : k < m.height) :
    (∃ v, m.memory.slot? k = some v) ∨ m.memory.slot? k = none ∧ E .outOfBounds := by
  cases hv : m.memory.slot? k with
  | some v => exact .inl ⟨v, rfl⟩
  | none =>
    refine .inr ⟨rfl, ?_⟩
    obtain hle | hE := h.live m hm
    · have hsome := Memory.isSome_slot? m.memory k
      rw [hv, decide_eq_true (Nat.lt_of_lt_of_le hk hle)] at hsome
      cases hsome
    · exact hE

theorem top (op : Opcode) : Keeps I E (top op) := by
  intro m hm
  rw [wp_top]
  refine ⟨fun _ => ⟨h.fault _, hm⟩, fun hne => ?_⟩
  obtain ⟨v, hv⟩ | ⟨hv, hE⟩ := h.slot hm (k := m.height - 1) (by omega)
  · rw [hv]
    exact hm
  · rw [hv]
    exact ⟨hE, hm⟩

theorem integer (op : Opcode) (v : Value) : Keeps I E (integer op v) := by
  cases v with
  | int i => exact Keeps.pure i
  | bytes b => exact Keeps.fail (h.fault _)

theorem arithmetic (op : Arithmetic) : Keeps I E (arithmetic op) := by
  refine Keeps.bind (h.pop _) fun right => Keeps.bind (h.pop _) fun left => ?_
  split
  · split
    · exact h.push _
    · exact Keeps.fail (h.fault _)
  · exact Keeps.fail (h.fault _)

theorem concat : Keeps I E concat := by
  refine Keeps.bind (h.pop _) fun right => Keeps.bind (h.pop _) fun left => ?_
  split
  · exact h.push _
  · exact Keeps.fail (h.fault _)

theorem param {r : Register} (hset : ∀ v, Keeps I E (setRegister r v)) (offset : Int64) :
    Keeps I E (param r offset) := by
  refine Keeps.get_bind fun m hm => ?_
  by_cases hout : (m.registers.fp - offset).toInt < 0 ∨
      (m.height : Int) ≤ (m.registers.fp - offset).toInt
  · simp only [if_pos hout]
    exact ⟨h.fault _, hm⟩
  · simp only [if_neg hout]
    obtain ⟨v, hv⟩ | ⟨hv, hE⟩ :=
      h.slot hm (k := (m.registers.fp - offset).toInt.toNat) (by omega)
    · rw [hv]
      exact hset v m hm
    · rw [hv]
      exact ⟨hE, hm⟩

theorem dump (hi : i.prints) : Keeps I E dump := by
  refine Keeps.get_bind fun m hm => ?_
  unfold Machine.stack? Memory.stack?
  split
  · rename_i hnone
    obtain hle | hE := h.live m hm
    · rw [if_pos hle] at hnone
      cases hnone
    · exact ⟨hE, hm⟩
  · exact h.print hi _ m hm

/-- One case for each instruction: its elementary actions in their order. -/
theorem execute : Keeps I E (execute i) := by
  -- All but `HALT` do something and then go on.
  have goOn {x : Action Unit} (hx : Keeps I E x) :
      Keeps I E (do x; return (none : Option UInt8)) :=
    Keeps.bind hx fun _ => Keeps.pure none
  cases i with
  | halt code => exact Keeps.pure _
  | pushInt i => exact goOn (h.push _)
  | pushString b => exact goOn (h.push _)
  | pushRegister r => exact Keeps.bind (Keeps.register r) fun v => goOn (h.push v)
  | pop => exact goOn (h.pop _).discard
  | popRegister r => exact Keeps.bind (h.pop _) fun v => goOn (h.write r rfl v)
  | store r => exact Keeps.bind (h.top _) fun v => goOn (h.write r rfl v)
  | swap => exact goOn h.swap
  | dup => exact Keeps.bind (h.top _) fun v => goOn (h.push v)
  | arithmetic op => exact goOn (h.arithmetic op)
  | setInt r i => exact goOn (h.write r rfl _)
  | setString r b => exact goOn (h.write r rfl _)
  | jump target => exact goOn (h.jump rfl target)
  | jumpTop c target =>
    refine goOn (Keeps.bind (h.top _) fun v => Keeps.bind (h.integer _ v) fun i => ?_)
    exact Keeps.ite (fun _ => h.jump rfl target) fun _ => Keeps.pure _
  | jumpRegister r =>
    exact Keeps.bind (Keeps.register r) fun v =>
      Keeps.bind (h.integer _ v) fun target => goOn (h.jump rfl target)
  | print => exact Keeps.bind (h.top _) fun v => goOn (h.print rfl _)
  | printRegister r => exact Keeps.bind (Keeps.register r) fun v => goOn (h.print rfl _)
  | dump => exact goOn (h.dump rfl)
  | dumpRegisters => exact Keeps.get_bind fun m hm => goOn (h.print rfl _) m hm
  | ret => exact Keeps.get_bind fun m hm => goOn (h.jump rfl _) m hm
  | call target => exact goOn (h.call target rfl)
  | concat => exact goOn h.concat
  | param r offset => exact goOn (h.param (h.write r rfl) offset)
  | compare left right =>
    refine Keeps.bind (Keeps.register left) fun v => Keeps.bind (Keeps.register right) fun w => ?_
    split
    · exact goOn (Keeps.modify fun m hm => h.flag m _ hm)
    · exact goOn (Keeps.fail (h.fault _))
  | jumpFlag c target =>
    refine Keeps.get_bind fun m hm => ?_
    split
    · exact goOn (h.jump rfl target) m hm
    · exact hm
  | step => exact goOn h.trace

end Closed

end Action
end StackMachine
