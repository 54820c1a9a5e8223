-- SUMMARY: Machines that differ in memory, tracing or output only, and what instructions keep of their likeness.
import StackMachine.Proofs.LiveStack
import StackMachine.Proofs.Refinement

/-!
# Likeness

Two machines are alike if they agree on everything but their memories, settings of
tracing and outputs, and those are related in a way that a `Likeness` fixes. The
journals do not count. An action respects the likeness if it ends alike on both
machines: with equal results or equal traps, and with machines that are alike again.
The one exception is a fault that only the first machine has, and that `E` admits:
from there on the two go apart. `Action.Compatible` lists what an instruction asks of
the relations, and `Action.Compatible.execute` draws the conclusion once for all
likenesses.
-/

namespace StackMachine

/-! ## Slots -/

namespace Memory

variable {M : Memory}

theorem lt_capacity_of_slot? {i : Nat} {v : Value} (h : M.slot? i = some v) : i < M.capacity := by
  have hsome := isSome_slot? M i
  rw [h] at hsome
  exact of_decide_eq_true hsome.symm

theorem exists_slot {i : Nat} (h : i < M.capacity) : ∃ v, M.slot? i = some v := by
  have hsome := isSome_slot? M i
  rw [decide_eq_true h] at hsome
  exact Option.isSome_iff_exists.1 hsome

theorem le_capacity_of_stack? {height : Nat} {stack : List Value}
    (h : M.stack? height = some stack) : height ≤ M.capacity := by
  unfold stack? at h
  split at h
  · assumption
  · cases h

end Memory

/-! ## Machines that are alike -/

structure Likeness where
  memory : Memory → Memory → Prop
  tracing : Bool → Bool → Prop
  output : Sink → Sink → Prop

/-- The machines are alike. -/
structure Likeness.Relates (ℓ : Likeness) (m n : Machine) : Prop where
  memory : ℓ.memory m.memory n.memory
  registers : n.registers = m.registers
  flag : n.flag = m.flag
  fault : n.fault = m.fault
  exitCode : n.exitCode = m.exitCode
  terminating : n.terminating = m.terminating
  tracing : ℓ.tracing m.tracing n.tracing
  output : ℓ.output m.output n.output

namespace Likeness.Relates

variable {ℓ : Likeness} {m n : Machine} (h : ℓ.Relates m n)
include h

theorem height : n.height = m.height := by
  rw [Machine.height, Machine.height, h.registers]

theorem goTo (pc : Int64) (journal journal' : Journal) :
    ℓ.Relates (m.goTo pc journal) (n.goTo pc journal') :=
  { h with registers := congrArg ({ · with pc }) h.registers }

theorem faultLine_eq : n.faultLine = m.faultLine := by
  unfold Machine.faultLine
  rw [h.fault]

/-- On the same program both machines decode the same. -/
theorem decode_eq (hcode : n.memory.code = m.memory.code) :
    Fetch.decode n.memory n.registers.pc = Fetch.decode m.memory m.registers.pc := by
  rw [h.registers]
  exact Fetch.seesCode_decode _ hcode

end Likeness.Relates

/-- Machines that were set up alike. -/
theorem Likeness.relates_ofProgram {ℓ : Likeness} {program program' : Bytes}
    {config config' : Config}
    (hmemory : ℓ.memory (.ofProgram program config.stackSize)
      (.ofProgram program' config'.stackSize))
    (htracing : ℓ.tracing config.tracing config'.tracing)
    (houtput : ℓ.output (.ofLimit config.outputLimit) (.ofLimit config'.outputLimit)) :
    ℓ.Relates (.ofProgram program config) (.ofProgram program' config') where
  memory := hmemory
  registers := rfl
  flag := rfl
  fault := rfl
  exitCode := rfl
  terminating := rfl
  tracing := htracing
  output := houtput

/-! ## Actions that end alike -/

/-- The fault depends on the number of slots. -/
def Fault.OfCapacity : Fault → Prop
  | stackOverflow | stackPointerOutOfRange _ => True
  | _ => False

namespace Action

/-- The endings of an action on two machines. The first machine may end outside its
    stack, whatever the second one does, or in a fault that sets them apart. -/
inductive Alike (R : Machine → Machine → Prop) (E : Fault → Machine → Machine → Prop) :
    EStateM.Result Trap Machine α → EStateM.Result Trap Machine α → Prop
  | ok {m n : Machine} (a : α) (h : R m n) : Alike R E (.ok a m) (.ok a n)
  | error {m n : Machine} (t : Trap) (h : R m n) : Alike R E (.error t m) (.error t n)
  | outOfBounds (m : Machine) (r : EStateM.Result Trap Machine α) :
      Alike R E (.error .outOfBounds m) r
  | apart {f : Fault} {m n : Machine} (a : α) (h : E f m n) :
      Alike R E (.error (.fault f) m) (.ok a n)

/-- An effect behind a check that only the first machine may fail. -/
theorem Alike.guard {R : Machine → Machine → Prop} {E : Fault → Machine → Machine → Prop}
    {p q : Prop} [Decidable p] [Decidable q] {f : Fault} {m n m' n' : Machine} (h : R m n)
    (hpq : p → q) (hapart : (q → p) ∨ ∀ m n, E f m n) (heffect : p → R m' n') :
    Alike R E (if p then .ok () m' else .error (.fault f) m)
      (if q then .ok () n' else .error (.fault f) n) := by
  by_cases hp : p
  · rw [if_pos hp, if_pos (hpq hp)]
    exact .ok () (heffect hp)
  rw [if_neg hp]
  split
  · rename_i hq
    obtain hqp | hE := hapart
    · exact absurd (hqp hq) hp
    · exact .apart () (hE m n')
  · exact .error _ h

/-- The action ends alike on any two machines that are related. -/
def Respects (R : Machine → Machine → Prop) (E : Fault → Machine → Machine → Prop)
    (x : Action α) : Prop :=
  ∀ ⦃m n⦄, R m n → Alike R E (x m) (x n)

/-- No fault sets two machines apart. -/
abbrev Never : Fault → Machine → Machine → Prop := fun _ _ _ => False

namespace Respects

variable {R : Machine → Machine → Prop} {E : Fault → Machine → Machine → Prop}

theorem pure (a : α) : Respects R E (Pure.pure a : Action α) := fun _ _ h => .ok a h

theorem fail (f : Fault) : Respects R E (Action.fail f : Action α) := fun _ _ h => .error _ h

/-- Only what comes last may set the machines apart. -/
theorem bind {x : Action α} {f : α → Action β} (hx : Respects R Never x)
    (hf : ∀ a, Respects R E (f a)) : Respects R E (x >>= f) := by
  intro m n h
  rw [bind_apply, bind_apply]
  have halike := hx h
  generalize x m = r at halike
  generalize x n = r' at halike
  cases halike with
  | ok a h => exact hf a h
  | error t h => exact .error t h
  | outOfBounds m r => exact .outOfBounds m _
  | apart a h => exact h.elim

theorem andThen {x : Action Unit} (hx : Respects R E x) (result : β) :
    Respects R E (do x; return result) := by
  intro m n h
  rw [bind_apply, bind_apply]
  have halike := hx h
  generalize x m = r at halike
  generalize x n = r' at halike
  cases halike with
  | ok a h => exact .ok result h
  | error t h => exact .error t h
  | outOfBounds m r => exact .outOfBounds m _
  | apart a h => exact .apart result h

theorem discard {x : Action α} (hx : Respects R E x) : Respects R E (Functor.discard x) := by
  intro m n h
  have halike := hx h
  simp only [Functor.discard, Functor.mapConst, Function.comp, EStateM.map]
  generalize x m = r at halike
  generalize x n = r' at halike
  cases halike with
  | ok a h => exact .ok _ h
  | error t h => exact .error t h
  | outOfBounds m r => exact .outOfBounds m _
  | apart a h => exact .apart _ h

theorem modify {f : Machine → Machine} (hf : ∀ m n, R m n → R (f m) (f n)) :
    Respects R E (modify f : Action Unit) := fun m n h => .ok () (hf m n h)

/-- An action that begins by looking at the machine. -/
theorem get_bind {f : Machine → Action β} (hf : ∀ m n, R m n → Alike R E (f m m) (f n n)) :
    Respects R E (get >>= f) :=
  hf

theorem ite (c : Bool) {x y : Action α} (hx : Respects R E x) (hy : Respects R E y) :
    Respects R E (if c then x else y) := by
  cases c with
  | true => exact hx
  | false => exact hy

end Respects

/-- Machines with the same output print the same. -/
theorem respects_printLine {memory : Memory → Memory → Prop} {tracing : Bool → Bool → Prop}
    {E : Fault → Machine → Machine → Prop} (line : Text) :
    Respects (Likeness.Relates ⟨memory, tracing, Eq⟩) E (printLine line) := by
  intro m n hmn
  have houtput : m.output = n.output := hmn.output
  unfold printLine
  dsimp only
  rw [houtput]
  split
  · exact .ok () { hmn with output := rfl }
  · exact .error _ { hmn with output := rfl }

/-! ## What an instruction asks of a likeness -/

/-- What an instruction asks of a likeness: the slots and the program of the second
    machine extend those of the first, and where they go beyond them, the fault of the
    first machine is one that `E` admits. -/
structure Compatible (ℓ : Likeness) (E : Fault → Machine → Machine → Prop) : Prop where
  slot : ∀ {M N : Memory} {i : Nat} {v : Value},
    ℓ.memory M N → M.slot? i = some v → N.slot? i = some v
  put : ∀ {M N : Memory} {i : Nat} (v : Value),
    ℓ.memory M N → i < M.capacity → ℓ.memory (M.put i v) (N.put i v)
  swap : ∀ {M N : Memory} {i j : Nat},
    ℓ.memory M N → i < M.capacity → j < M.capacity → ℓ.memory (M.swap i j) (N.swap i j)
  capacity : ∀ {M N : Memory},
    ℓ.memory M N → N.capacity = M.capacity ∨ ∀ f, f.OfCapacity → ∀ m n, E f m n
  inCode : ∀ {M N : Memory} {target : Int64},
    ℓ.memory M N → M.inCode target = true → N.inCode target = true
  code : ∀ {M N : Memory} (target : Int64),
    ℓ.memory M N → N.inCode target = M.inCode target ∨ ∀ m n, E (.jumpOutOfRange target) m n
  tracing : ∀ {a b : Bool}, ℓ.tracing a b → ℓ.tracing (!a) (!b)
  print : ∀ line, Respects ℓ.Relates E (printLine line)

/-- Machines with the same memory need a closer look only where they print. -/
theorem compatible_of_sameMemory {tracing : Bool → Bool → Prop} {output : Sink → Sink → Prop}
    {E : Fault → Machine → Machine → Prop}
    (htracing : ∀ {a b : Bool}, tracing a b → tracing (!a) (!b))
    (hprint : ∀ line, Respects (Likeness.Relates ⟨Eq, tracing, output⟩) E (printLine line)) :
    Compatible ⟨Eq, tracing, output⟩ E where
  slot h hv := by cases h; exact hv
  put v h _ := by cases h; rfl
  swap h _ _ := by cases h; rfl
  capacity h := by cases h; exact .inl rfl
  inCode h hin := by cases h; exact hin
  code target h := by cases h; exact .inl rfl
  tracing := htracing
  print := hprint

namespace Compatible

variable {ℓ : Likeness} {E E' : Fault → Machine → Machine → Prop} (h : Compatible ℓ E)
include h

theorem capacity_le {M N : Memory} (hmemory : ℓ.memory M N) : M.capacity ≤ N.capacity := by
  refine Nat.le_of_not_lt fun hlt => ?_
  obtain ⟨v, hv⟩ := Memory.exists_slot hlt
  exact Nat.lt_irrefl _ (Memory.lt_capacity_of_slot? (h.slot hmemory hv))

/-- As many live slots hold the same values. -/
theorem stack? {M N : Memory} {height : Nat} {stack : List Value} (hmemory : ℓ.memory M N)
    (hstack : M.stack? height = some stack) : N.stack? height = some stack := by
  have hle := Memory.le_capacity_of_stack? hstack
  have hle' := Nat.le_trans hle (h.capacity_le hmemory)
  rw [Memory.stack?_eq_live hle, Option.some.injEq] at hstack
  subst hstack
  rw [Memory.stack?_eq_live hle']
  refine congrArg some (List.ext_getElem? fun i => ?_)
  by_cases hi : i < height
  · obtain ⟨v, hv⟩ := Memory.exists_slot (Nat.lt_of_lt_of_le hi hle)
    rw [Memory.getElem?_live hi, Memory.getElem?_live hi, hv, h.slot hmemory hv]
  · have hlength := Memory.length_live hle
    have hlength' := Memory.length_live hle'
    rw [List.getElem?_eq_none (by omega), List.getElem?_eq_none (by omega)]

/-- Machines that are alike have the same live stack. -/
theorem stack?_of_relates {m n : Machine} {stack : List Value} (hmn : ℓ.Relates m n)
    (hstack : m.stack? = some stack) : n.stack? = some stack := by
  unfold Machine.stack? at hstack ⊢
  rw [hmn.height]
  exact h.stack? hmn.memory hstack

/-! ### The stack -/

theorem top (op : Opcode) : Respects ℓ.Relates E' (top op) := by
  intro m n hmn
  unfold Action.top
  rw [hmn.height]
  split
  · exact .error _ hmn
  · cases hv : m.memory.slot? (m.height - 1) with
    | none => exact .outOfBounds _ _
    | some v =>
      rw [h.slot hmn.memory hv]
      exact .ok v hmn

theorem pop (op : Opcode) : Respects ℓ.Relates E' (pop op) := by
  intro m n hmn
  unfold Action.pop Memory.take?
  rw [hmn.height, hmn.registers]
  split
  · exact .error _ hmn
  · cases hv : m.memory.slot? (m.height - 1) with
    | none => exact .outOfBounds _ _
    | some v =>
      rw [h.slot hmn.memory hv]
      have hmemory := h.put .zero hmn.memory (Memory.lt_capacity_of_slot? hv)
      exact .ok v { hmn with memory := hmemory, registers := rfl }

/-- The second machine may have a slot where the first has none left. -/
theorem push (v : Value) : Respects ℓ.Relates E (push v) := by
  intro m n hmn
  rw [push_apply, push_apply, hmn.height, hmn.registers]
  refine Alike.guard hmn (fun hroom => Nat.lt_of_lt_of_le hroom (h.capacity_le hmn.memory)) ?_
    fun hroom => { hmn with memory := h.put v hmn.memory hroom, registers := rfl }
  refine (h.capacity hmn.memory).imp (fun heq => ?_) fun hE => hE .stackOverflow trivial
  rw [heq]
  exact id

theorem swapTop : Respects ℓ.Relates E' swapTop := by
  intro m n hmn
  rw [swapTop_apply, swapTop_apply, hmn.height]
  split
  · exact .error _ hmn
  · split
    · rename_i hle
      rw [if_pos (Nat.le_trans hle (h.capacity_le hmn.memory))]
      exact .ok () { hmn with memory := h.swap hmn.memory (by omega) (by omega) }
    · exact .outOfBounds _ _

/-! ### Registers -/

omit h in
theorem register (r : Register) : Respects ℓ.Relates E' (register r) := by
  intro m n hmn
  change Alike _ _ (.ok (m.registers.get r) m) (.ok (n.registers.get r) n)
  rw [hmn.registers]
  exact .ok _ hmn

/-- A change of the registers behind a check of an address. -/
theorem checkTarget (target : Int64) (f : RegisterFile → RegisterFile) :
    Respects ℓ.Relates E (do
      checkTarget target
      modify fun m => { m with registers := f m.registers }) := by
  intro m n hmn
  have happly (k : Machine) :
      (do Action.checkTarget target
          modify fun m => { m with registers := f m.registers } : Action Unit) k =
        if k.memory.inCode target = true then .ok () { k with registers := f k.registers }
        else .error (.fault (.jumpOutOfRange target)) k := by
    rw [bind_apply, Action.checkTarget]
    cases k.memory.inCode target <;> rfl
  rw [happly, happly]
  refine Alike.guard hmn (h.inCode hmn.memory) ?_ fun _ =>
    { hmn with registers := congrArg f hmn.registers }
  refine (h.code target hmn.memory).imp (fun heq => ?_) id
  rw [heq]
  exact id

theorem jump (target : Int64) : Respects ℓ.Relates E (jump target) :=
  h.checkTarget target fun file => { file with pc := target }

theorem call (target : Int64) : Respects ℓ.Relates E (call target) :=
  h.checkTarget target fun file => { file with pc := target, rt := file.pc, fp := file.sp }

theorem setStackPointer (sp : Int64) : Respects ℓ.Relates E (setRegister .sp (.int sp)) := by
  intro m n hmn
  unfold setRegister
  dsimp only
  rw [← ite_not (isOffStack m sp = true), ← ite_not (isOffStack n sp = true), hmn.registers]
  have hle := h.capacity_le hmn.memory
  refine Alike.guard hmn ?_ ?_ fun _ => { hmn with registers := rfl }
  · simp only [isOffStack, Bool.or_eq_true, decide_eq_true_eq]
    omega
  · refine (h.capacity hmn.memory).imp (fun heq => ?_) fun hE =>
      hE (.stackPointerOutOfRange sp) trivial
    rw [isOffStack, heq]
    exact id

theorem setRegister (r : Register) (v : Value) : Respects ℓ.Relates E (setRegister r v) := by
  by_cases hpc : r = .pc
  · subst hpc
    cases v with
    | int target => exact h.jump target
    | bytes b => exact fun m n hmn => .error _ hmn
  by_cases hsp : r = .sp
  · subst hsp
    cases v with
    | int sp => exact h.setStackPointer sp
    | bytes b => exact fun m n hmn => .error _ hmn
  intro m n hmn
  rw [setRegister_of_ne hpc hsp, setRegister_of_ne hpc hsp, hmn.registers]
  cases m.registers.set? r v with
  | none => exact .error _ hmn
  | some registers => exact .ok () { hmn with registers := rfl }

/-! ### Instructions -/

omit h in
theorem integer (op : Opcode) (v : Value) : Respects ℓ.Relates E' (integer op v) := by
  cases v with
  | int i => exact Respects.pure i
  | bytes b => exact Respects.fail _

theorem arithmetic (op : Arithmetic) : Respects ℓ.Relates E (arithmetic op) := by
  refine Respects.bind (h.pop _) fun right => Respects.bind (h.pop _) fun left => ?_
  split
  · split
    · exact h.push _
    · exact Respects.fail _
  · exact Respects.fail _

theorem concat : Respects ℓ.Relates E concat := by
  refine Respects.bind (h.pop _) fun right => Respects.bind (h.pop _) fun left => ?_
  split
  · exact h.push _
  · exact Respects.fail _

theorem param (r : Register) (offset : Int64) : Respects ℓ.Relates E (param r offset) := by
  refine Respects.get_bind fun m n hmn => ?_
  rw [hmn.registers, hmn.height]
  by_cases hout : (m.registers.fp - offset).toInt < 0 ∨
      (m.height : Int) ≤ (m.registers.fp - offset).toInt
  · simp only [if_pos hout]
    exact .error _ hmn
  · simp only [if_neg hout]
    cases hv : m.memory.slot? (m.registers.fp - offset).toInt.toNat with
    | none => exact .outOfBounds _ _
    | some v =>
      rw [h.slot hmn.memory hv]
      exact h.setRegister r v hmn

theorem dump : Respects ℓ.Relates E dump := by
  refine Respects.get_bind fun m n hmn => ?_
  cases hstack : m.stack? with
  | none => exact .outOfBounds _ _
  | some stack =>
    rw [h.stack?_of_relates hmn hstack]
    exact h.print _ hmn

theorem toggleTracing : Respects ℓ.Relates E toggleTracing :=
  Respects.modify fun _ _ hmn => { hmn with tracing := h.tracing hmn.tracing }

/-- One case for each instruction: its elementary actions in their order. -/
theorem execute (i : Instruction) : Respects ℓ.Relates E (execute i) := by
  cases i with
  | halt code => exact Respects.pure _
  | pushInt i => exact (h.push _).andThen _
  | pushString b => exact (h.push _).andThen _
  | pushRegister r => exact Respects.bind (register r) fun v => (h.push v).andThen _
  | pop => exact (h.pop _).discard.andThen _
  | popRegister r => exact Respects.bind (h.pop _) fun v => (h.setRegister r v).andThen _
  | store r => exact Respects.bind (h.top _) fun v => (h.setRegister r v).andThen _
  | swap => exact h.swapTop.andThen _
  | dup => exact Respects.bind (h.top _) fun v => (h.push v).andThen _
  | arithmetic op => exact (h.arithmetic op).andThen _
  | setInt r i => exact (h.setRegister r _).andThen _
  | setString r b => exact (h.setRegister r _).andThen _
  | jump target => exact (h.jump target).andThen _
  | jumpTop c target =>
    refine Respects.andThen ?_ _
    refine Respects.bind (h.top _) fun v => Respects.bind (integer _ v) fun i => ?_
    exact Respects.ite _ (h.jump target) (Respects.pure _)
  | jumpRegister r =>
    exact Respects.bind (register r) fun v =>
      Respects.bind (integer _ v) fun target => (h.jump target).andThen _
  | print => exact Respects.bind (h.top _) fun v => (h.print _).andThen _
  | printRegister r => exact Respects.bind (register r) fun v => (h.print _).andThen _
  | dump => exact h.dump.andThen _
  | dumpRegisters =>
    refine Respects.get_bind fun m n hmn => ?_
    rw [hmn.registers]
    exact (h.print _).andThen _ hmn
  | ret =>
    refine Respects.get_bind fun m n hmn => ?_
    rw [hmn.registers]
    exact (h.jump _).andThen _ hmn
  | call target => exact (h.call target).andThen _
  | concat => exact h.concat.andThen _
  | param r offset => exact (h.param r offset).andThen _
  | compare left right =>
    refine Respects.bind (register left) fun v => Respects.bind (register right) fun w => ?_
    split
    · exact (Respects.modify fun _ _ hmn => { hmn with flag := rfl }).andThen _
    · exact (Respects.fail _).andThen _
  | jumpFlag c target =>
    refine Respects.get_bind fun m n hmn => ?_
    rw [hmn.flag]
    split
    · exact (h.jump target).andThen _ hmn
    · exact .ok _ hmn
  | step => exact h.toggleTracing.andThen _

end Compatible

end Action

end StackMachine
