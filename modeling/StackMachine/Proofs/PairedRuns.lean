-- SUMMARY: Steps and runs of two machines that are alike, until a fault of the first one sets them apart.
import StackMachine.Proofs.Likeness
import StackMachine.Proofs.Lockstep
import StackMachine.Proofs.Runs

/-!
# Paired runs

Machines that are alike and decode the same instruction take the same step: they
return the same and are alike again, or the first machine records a fault that the
second one does not have. So any number of steps keeps them alike, up to the first
such fault.
-/

namespace StackMachine

/-! ## Steps -/

namespace Machine

variable {m n : Machine}

/-- The outcomes of a step of two machines, which a fault of the first one may set
    apart. -/
inductive StepsAlike (R : Machine → Machine → Prop) (E : Fault → Machine → Machine → Prop) :
    EStateM.Result Abort Machine Status → EStateM.Result Abort Machine Status → Prop
  | ok {m n : Machine} (status : Status) (h : R m n) :
      StepsAlike R E (.ok status m) (.ok status n)
  | error {m n : Machine} (a : Abort) (h : R m n) : StepsAlike R E (.error a m) (.error a n)
  | apart {f : Fault} {m n : Machine} (journal : Journal) (h : E f m n) :
      StepsAlike R E (.ok .running { m with fault := some f, journal }) (.ok .running n)

/-- The first machine has just recorded a fault that the second one does not have. -/
def SetApart (E : Fault → Machine → Machine → Prop) (m n : Machine) : Prop :=
  ∃ f m' journal, E f m' n ∧ m = { m' with fault := some f, journal }

theorem StepsAlike.after {R : Machine → Machine → Prop} {E : Fault → Machine → Machine → Prop}
    (h : StepsAlike R E m.step n.step) :
    (returned n.step = returned m.step ∧ R (m.after .step) (n.after .step)) ∨
    SetApart E (m.after .step) (n.after .step) := by
  unfold Machine.after
  generalize m.step = r at h
  generalize n.step = r' at h
  cases h with
  | ok status h => exact .inl ⟨rfl, h⟩
  | error a h => exact .inl ⟨rfl, h⟩
  | apart journal h => exact .inr ⟨_, _, journal, h, rfl⟩

variable {ℓ : Likeness} {E : Fault → Machine → Machine → Prop}

/-- Executions that end alike make outcomes of steps that are alike. -/
theorem StepsAlike.of_execute {i : Instruction} {r r' : EStateM.Result Abort Machine Status}
    (h : Action.Alike ℓ.Relates E (Action.execute i m) (Action.execute i n))
    (hm : StepOf (Action.execute i m) r) (hn : StepOf (Action.execute i n) r') :
    StepsAlike ℓ.Relates E r r' := by
  have hcode (code : Option UInt8) (n' : Machine) (hok : Action.execute i n = .ok code n') :
      code = i.exitCode? := (Action.yields_execute i n).of_eq_ok hok
  have hfault (t : Trap) (m' : Machine) (herror : Action.execute i m = .error t m') :
      i.exitCode? = none := by
    cases i with
    | halt code => cases herror
    | _ => rfl
  generalize Action.execute i m = x at *
  generalize Action.execute i n = y at *
  cases h with
  | ok a h =>
    cases hm <;> cases hn
    · exact .ok _ { h with exitCode := rfl }
    · exact .ok _ h
  | error t h =>
    cases hm
    cases hn
    exact .ok _ { h with fault := rfl }
  | outOfBounds m y => cases hm
  | apart a h =>
    cases hm
    -- Only one instruction halts, and that one has no faults.
    cases hn with
    | halted code n' => cases (hcode _ _ rfl).trans (hfault _ _ rfl)
    | ran n' => exact .apart _ h

section Steps

variable {program program' : Bytes} {capacity capacity' : Nat}
  (hsize : program.length < 2 ^ 63) (hcap : capacity < 2 ^ 63)
  (hsize' : program'.length < 2 ^ 63) (hcap' : capacity' < 2 ^ 63)
include hsize hcap hsize' hcap'

/-- A step of two machines that are alike, if they decode the same instruction where
    the first one is to execute one. -/
theorem stepsAlike_of_going (h : Action.Compatible ℓ E) (hmn : ℓ.Relates m n)
    (hm : m.Bounded program capacity) (hn : n.Bounded program' capacity')
    (hdecode : m.Ready program capacity → m.terminating = false →
      Fetch.decode n.memory n.registers.pc = Fetch.decode m.memory m.registers.pc) :
    StepsAlike ℓ.Relates E m.step n.step := by
  obtain ⟨code, hexit⟩ | ⟨hexit, f, hfault⟩ | ⟨hexit, hfault, hterm⟩ | ⟨hready, hgo⟩ := hm.cases
  · rw [step_of_exitCode hexit, step_of_exitCode (hmn.exitCode.trans hexit)]
    exact .ok _ hmn
  · rw [step_of_fault hexit hfault,
      step_of_fault (hmn.exitCode.trans hexit) (hmn.fault.trans hfault)]
    exact .ok _ hmn
  · rw [step_of_terminating hexit hfault hterm, step_of_terminating (hmn.exitCode.trans hexit)
      (hmn.fault.trans hfault) (hmn.terminating.trans hterm)]
    exact .ok _ { hmn with fault := rfl }
  have hready' : n.Ready program' capacity' :=
    ⟨hn.toInBounds, hmn.fault.trans hready.fault, hmn.exitCode.trans hready.exitCode⟩
  have hcycles := hready.cycles hsize hcap hgo
  have hcycles' := hready'.cycles hsize' hcap' (hmn.terminating.trans hgo)
  cases hdecoded : Fetch.decode m.memory m.registers.pc with
  | error f pc =>
    obtain ⟨journal, hstep⟩ := hcycles.of_decode_eq_error hdecoded
    obtain ⟨journal', hstep'⟩ :=
      hcycles'.of_decode_eq_error ((hdecode hready hgo).trans hdecoded)
    rw [hstep, hstep']
    exact .error _ (hmn.goTo pc journal journal')
  | ok i pc =>
    obtain ⟨journal, hstep⟩ := hcycles.of_decode_eq_ok hdecoded
    obtain ⟨journal', hstep'⟩ := hcycles'.of_decode_eq_ok ((hdecode hready hgo).trans hdecoded)
    exact .of_execute (h.execute i (hmn.goTo pc journal journal')) hstep hstep'

theorem stepsAlike_of_relates (h : Action.Compatible ℓ E) (hmn : ℓ.Relates m n)
    (hm : m.Bounded program capacity) (hn : n.Bounded program' capacity')
    (hdecode : Fetch.decode n.memory n.registers.pc = Fetch.decode m.memory m.registers.pc) :
    StepsAlike ℓ.Relates E m.step n.step :=
  stepsAlike_of_going hsize hcap hsize' hcap' h hmn hm hn fun _ _ => hdecode

/-- Any number of steps keeps two machines alike and makes them return the same,
    unless one of the steps sets them apart. -/
theorem relates_or_setApart_of_going (h : Action.Compatible ℓ E) (hmn : ℓ.Relates m n)
    (hm : m.Bounded program capacity) (hn : n.Bounded program' capacity') (k : Nat)
    (hdecode : ∀ j < k, ℓ.Relates (m.afterSteps j) (n.afterSteps j) →
      (m.afterSteps j).Ready program capacity → (m.afterSteps j).terminating = false →
      Fetch.decode (n.afterSteps j).memory (n.afterSteps j).registers.pc =
        Fetch.decode (m.afterSteps j).memory (m.afterSteps j).registers.pc) :
    (n.replies k = m.replies k ∧ ∀ j ≤ k, ℓ.Relates (m.afterSteps j) (n.afterSteps j)) ∨
    ∃ j < k, (∀ i ≤ j, ℓ.Relates (m.afterSteps i) (n.afterSteps i)) ∧
      SetApart E (m.afterSteps (j + 1)) (n.afterSteps (j + 1)) := by
  induction k with
  | zero => exact .inl ⟨rfl, fun j hj => Nat.le_zero.1 hj ▸ hmn⟩
  | succ k ih =>
    obtain ⟨hreplies, halike⟩ | ⟨j, hj, hrest⟩ := ih fun j hj => hdecode j (by omega)
    · have hlast := halike k (Nat.le_refl k)
      have hstep := stepsAlike_of_going hsize hcap hsize' hcap' h hlast
        (hm.afterSteps hsize hcap k) (hn.afterSteps hsize' hcap' k)
        (hdecode k (Nat.lt_succ_self k) hlast)
      obtain ⟨hreply, hnext⟩ | hapart := hstep.after
      · refine .inl ⟨by rw [replies_succ, replies_succ, hreplies, hreply], fun j hj => ?_⟩
        obtain hlt | rfl := Nat.lt_or_eq_of_le hj
        · exact halike j (Nat.le_of_lt_succ hlt)
        · rwa [afterSteps_succ, afterSteps_succ]
      · refine .inr ⟨k, Nat.lt_succ_self k, halike, ?_⟩
        rwa [afterSteps_succ, afterSteps_succ]
    · exact .inr ⟨j, Nat.lt_succ_of_lt hj, hrest⟩

theorem relates_or_setApart (h : Action.Compatible ℓ E) (hmn : ℓ.Relates m n)
    (hm : m.Bounded program capacity) (hn : n.Bounded program' capacity') (k : Nat)
    (hdecode : ∀ j < k, ℓ.Relates (m.afterSteps j) (n.afterSteps j) →
      Fetch.decode (n.afterSteps j).memory (n.afterSteps j).registers.pc =
        Fetch.decode (m.afterSteps j).memory (m.afterSteps j).registers.pc) :
    (n.replies k = m.replies k ∧ ∀ j ≤ k, ℓ.Relates (m.afterSteps j) (n.afterSteps j)) ∨
    ∃ j < k, (∀ i ≤ j, ℓ.Relates (m.afterSteps i) (n.afterSteps i)) ∧
      SetApart E (m.afterSteps (j + 1)) (n.afterSteps (j + 1)) :=
  relates_or_setApart_of_going hsize hcap hsize' hcap' h hmn hm hn k
    fun j hj hrelates _ _ => hdecode j hj hrelates

end Steps

end Machine

end StackMachine
