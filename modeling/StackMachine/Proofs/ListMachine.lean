-- SUMMARY: A machine whose stack is a list: its state, its instructions and its steps.
import StackMachine.Machine.Run
import StackMachine.Proofs.Fetching

/-!
# The list machine

The list machine executes the same programs on a stack that is a list of values,
the deepest one first. It has no slots and no stack pointer: what reads as the
stack pointer is the length of the list. Each instruction is one function on
states. A fault is recorded in the state, which otherwise is as it was, without
the operands that the instruction has popped. The machine calculates with the
integers that the words are, and compares them as integers.
-/

namespace StackMachine

structure ListMachine where
  program : Bytes
  /-- The greatest length of the stack. -/
  capacity : Nat
  stack : List Value
  general : Vector Value 10
  pc : Int64
  fp : Int64
  rt : Int64
  flag : Ordering
  fault : Option Fault
  exitCode : Option UInt8
  tracing : Bool
  terminating : Bool
  output : Sink
  deriving DecidableEq, Repr

/-- The result of an operation on integers; a quotient is rounded towards zero. -/
def Arithmetic.exact (left right : Int) : Arithmetic → Int
  | add => left + right
  | sub => left - right
  | mul => left * right
  | div => left.tdiv right

/-- Do two integers compare as the condition says? -/
def Condition.compares (left right : Int) : Condition → Bool
  | greater => right < left
  | less => left < right
  | equal => left = right
  | unequal => left ≠ right

/-- The exit code of an instruction that halts. -/
def Instruction.exitCode? : Instruction → Option UInt8
  | halt code => some code
  | _ => none

namespace ListMachine

/-- A list machine before its first instruction. -/
def ofProgram (program : Bytes) (config : Config) : ListMachine where
  program := program
  capacity := config.stackSize
  stack := []
  general := RegisterFile.fresh.general
  pc := 0
  fp := 0
  rt := 0
  flag := .eq
  fault := none
  exitCode := none
  tracing := config.tracing
  terminating := false
  output := .ofLimit config.outputLimit

variable (s : ListMachine)

/-- The registers as they read. -/
def registers : RegisterFile :=
  ⟨s.general, s.pc, .ofNat s.stack.length, s.fp, s.rt⟩

def fail (f : Fault) : ListMachine :=
  { s with fault := some f }

def halt (code : UInt8) : ListMachine :=
  { s with exitCode := some code }

/-! ## Stack -/

def withStack (stack : List Value) : ListMachine :=
  { s with stack }

def push (v : Value) : ListMachine :=
  if s.stack.length < s.capacity then s.withStack (s.stack ++ [v]) else s.fail .stackOverflow

/-- Go on with the last value, for the instruction `op`. -/
def withLast (op : Opcode) (go : Value → ListMachine) : ListMachine :=
  match s.stack.getLast? with
  | none => s.fail (.stackUnderflow op)
  | some v => go v

def pop : ListMachine :=
  s.withStack s.stack.dropLast

/-- Exchange the last two values. -/
def swap : ListMachine :=
  match s.stack.reverse with
  | upper :: lower :: below => s.withStack (below.reverse ++ [upper, lower])
  | _ => s.fail (.stackUnderflow .swap)

/-- Replace the last two values, of which the left one is the deeper, by what
    they combine to, for the instruction `op`. They are gone if they do not. -/
def combine (op : Opcode) (result : Value → Value → Except Fault Value) : ListMachine :=
  match s.stack.reverse with
  | right :: left :: below =>
    match result left right with
    | .ok v => s.withStack (below.reverse ++ [v])
    | .error f => (s.withStack below.reverse).fail f
  | _ => (s.withStack []).fail (.stackUnderflow op)

section Shapes

variable {s : ListMachine} {op : Opcode} {result : Value → Value → Except Fault Value}
  {below : List Value}

@[simp] theorem withStack_stack : s.withStack s.stack = s := rfl

@[simp] theorem withStack_withStack {stack : List Value} :
    (s.withStack stack).withStack below = s.withStack below := rfl

theorem push_withStack (h : below.length < s.capacity) (v : Value) :
    (s.withStack below).push v = s.withStack (below ++ [v]) :=
  if_pos h

/-- A stack with two values or more has two on top. -/
theorem exists_two_of_le {stack : List Value} (h : 2 ≤ stack.length) :
    ∃ below lower upper, stack = below ++ [lower, upper] := by
  obtain rfl | ⟨rest, upper, rfl⟩ := List.eq_nil_or_concat' stack
  · exact absurd h (by decide)
  obtain rfl | ⟨below, lower, rfl⟩ := List.eq_nil_or_concat' rest
  · exact absurd h (Nat.lt_irrefl 1)
  · exact ⟨below, lower, upper, List.append_assoc ..⟩

theorem swap_of_lt (h : s.stack.length < 2) : s.swap = s.fail (.stackUnderflow .swap) := by
  obtain hstack | ⟨rest, v, hstack⟩ := List.eq_nil_or_concat' s.stack
  · simp [swap, hstack]
  · have hrest : rest = [] := by simpa [hstack] using h
    simp [swap, hstack, hrest]

theorem swap_of_two {lower upper : Value} (h : s.stack = below ++ [lower, upper]) :
    s.swap = s.withStack (below ++ [upper, lower]) := by
  simp [swap, h]

theorem combine_of_empty (h : s.stack = []) :
    s.combine op result = s.fail (.stackUnderflow op) := by
  have hs : s.withStack [] = s := by rw [← h, withStack_stack]
  simp [combine, h, hs]

theorem combine_of_single {v : Value} (h : s.stack = [v]) :
    s.combine op result = (s.withStack []).fail (.stackUnderflow op) := by
  simp [combine, h]

theorem combine_of_lt (h : s.stack.length < 2) :
    s.combine op result = (s.withStack []).fail (.stackUnderflow op) := by
  obtain hstack | ⟨rest, v, hstack⟩ := List.eq_nil_or_concat' s.stack
  · rw [combine_of_empty hstack, ← hstack, withStack_stack]
  · obtain rfl : rest = [] := by simpa [hstack] using h
    exact combine_of_single hstack

theorem combine_of_two {left right : Value} (h : s.stack = below ++ [left, right]) :
    s.combine op result =
      match result left right with
      | .ok v => s.withStack (below ++ [v])
      | .error f => (s.withStack below).fail f := by
  simp [combine, h]

end Shapes

/-! ## Registers and output -/

/-- Is the address that of a byte of the program? -/
def isAddress (target : Int64) : Bool :=
  0 ≤ target.toInt && target.toInt < s.program.length

def jump (target : Int64) : ListMachine :=
  if s.isAddress target then { s with pc := target } else s.fail (.jumpOutOfRange target)

/-- Write a register. The special registers take integers only, and there is no
    stack pointer to be written. -/
def write (r : Register) (v : Value) : ListMachine :=
  match r, v with
  | .general ⟨i, hi⟩, v => { s with general := s.general.set i v hi }
  | _, .bytes _ => s.fail (.specialRegister r)
  | .pc, .int target => s.jump target
  | .sp, .int _ => s
  | .fp, .int i => { s with fp := i }
  | .rt, .int i => { s with rt := i }

/-- Print a line, as much of it as fits. -/
def print (line : Text) : ListMachine :=
  let bytes := Utf8.encode (line ++ ['\n'])
  let printed := { s with output := s.output.write bytes }
  if s.output.fits bytes.length then printed else printed.fail .output

/-! ## Instructions -/

/-- Go on with an integer, for the instruction `op`. -/
def withInteger (op : Opcode) (v : Value) (go : Int64 → ListMachine) : ListMachine :=
  match v with
  | .int i => go i
  | .bytes _ => s.fail (.typeMismatch op .integers)

/-- The value of an arithmetic operation on two values: the word of the exact
    integer. -/
def calculate (op : Arithmetic) : Value → Value → Except Fault Value
  | .int left, .int right =>
    if op = .div ∧ right = 0 then .error (.divisionByZero .div)
    else .ok (.int (.ofInt (op.exact left.toInt right.toInt)))
  | _, _ => .error (.typeMismatch op.opcode .integers)

/-- Two byte strings one after the other. -/
def join : Value → Value → Except Fault Value
  | .bytes left, .bytes right => .ok (.bytes (left ++ right))
  | _, _ => .error (.typeMismatch .concat .strings)

/-- The element of the stack that an index counts from the deepest one. -/
def element? (index : Int64) : Option Value :=
  if index.toInt < 0 then none else s.stack[index.toInt.toNat]?

/-- Copy the element that lies `offset` below the frame into a register. -/
def param (r : Register) (offset : Int64) : ListMachine :=
  match s.element? (s.fp - offset) with
  | none => s.fail (.paramOutOfRange (s.fp - offset))
  | some v => s.write r v

/-- Jump to a subroutine. The frame is the present length of the stack. -/
def call (target : Int64) : ListMachine :=
  if s.isAddress target then { s with pc := target, rt := s.pc, fp := s.registers.sp }
  else s.fail (.jumpOutOfRange target)

def compare (left right : Register) : ListMachine :=
  match s.registers.get left, s.registers.get right with
  | .int left, .int right => { s with flag := Ord.compare left.toInt right.toInt }
  | _, _ => s.fail (.typeMismatch .compare .integers)

/-- Did the last comparison come out as the condition says? -/
def flagged : Condition → Bool
  | .greater => s.flag.isGT
  | .less => s.flag.isLT
  | .equal => s.flag.isEq
  | .unequal => s.flag.isNe

/-- The state after an instruction whose operands have been read. -/
def execute : Instruction → ListMachine
  | .halt _ => s
  | .pushInt i => s.push (.int i)
  | .pushString b => s.push (.bytes b)
  | .pushRegister r => s.push (s.registers.get r)
  | .pop => s.withLast .pop fun _ => s.pop
  | .popRegister r => s.withLast .popRegister fun v => s.pop.write r v
  | .store r => s.withLast .store fun v => s.write r v
  | .swap => s.swap
  | .dup => s.withLast .dup fun v => s.push v
  | .arithmetic op => s.combine op.opcode (calculate op)
  | .setInt r i => s.write r (.int i)
  | .setString r b => s.write r (.bytes b)
  | .jump target => s.jump target
  | .jumpTop c target =>
    let op := (Instruction.jumpTop c target).opcode
    s.withLast op fun v => s.withInteger op v fun i =>
      if c.compares i.toInt 0 then s.jump target else s
  | .jumpRegister r => s.withInteger .jumpRegister (s.registers.get r) fun target => s.jump target
  | .print => s.withLast .print fun v => s.print v.render
  | .printRegister r => s.print (s.registers.get r).render
  | .dump => s.print (Value.renderStack s.stack)
  | .dumpRegisters => s.print s.registers.render
  | .ret => s.jump s.rt
  | .call target => s.call target
  | .concat => s.combine .concat join
  | .param r offset => s.param r offset
  | .compare left right => s.compare left right
  | .jumpFlag c target => if s.flagged c then s.jump target else s
  | .step => { s with tracing := !s.tracing }

/-! ## Steps -/

def goTo (pc : Int64) : ListMachine :=
  { s with pc }

/-- What a step comes to once it has decoded, or failed to. -/
def resume : EStateM.Result Malformation Int64 Instruction →
    EStateM.Result Malformation ListMachine Status
  | .error f pc => .error f (s.goTo pc)
  | .ok i pc =>
    let next := (s.goTo pc).execute i
    match i.exitCode? with
    | some code => .ok (.halted code) (next.halt code)
    | none => .ok .running next

/-- Take one step, unless the program has ended or the machine is asked to stop.
    The operands of an instruction are read before it is executed. -/
def step : EStateM.Result Malformation ListMachine Status :=
  match s.exitCode, s.fault with
  | some code, _ => .ok (.halted code) s
  | none, some _ => .ok .faulted s
  | none, none =>
    if s.terminating then .ok .faulted (s.fail .terminated)
    else s.resume (Fetch.decode (Memory.ofProgram s.program 0) s.pc)

theorem step_of_exitCode {s : ListMachine} {code : UInt8} (h : s.exitCode = some code) :
    s.step = .ok (.halted code) s := by
  rw [step, h]

theorem step_of_fault {s : ListMachine} {f : Fault} (hexit : s.exitCode = none)
    (hfault : s.fault = some f) : s.step = .ok .faulted s := by
  rw [step, hexit, hfault]

theorem step_of_terminating {s : ListMachine} (hexit : s.exitCode = none)
    (hfault : s.fault = none) (hterm : s.terminating = true) :
    s.step = .ok .faulted (s.fail .terminated) := by
  rw [step, hexit, hfault]
  exact if_pos hterm

theorem step_of_going {s : ListMachine} (hexit : s.exitCode = none) (hfault : s.fault = none)
    (hgo : s.terminating = false) :
    s.step = s.resume (Fetch.decode (Memory.ofProgram s.program 0) s.pc) := by
  rw [step, hexit, hfault]
  exact if_neg (Bool.eq_false_iff.1 hgo)

/-- The state that a step leaves, whatever it returns. -/
def leftBy : EStateM.Result Malformation ListMachine Status → ListMachine
  | .ok _ s => s
  | .error _ s => s

def stepped : ListMachine :=
  leftBy s.step

end ListMachine

end StackMachine
