-- SUMMARY: Where the execution of an instruction leaves the program counter.
import StackMachine.Proofs.Invariants

/-!
# Control flow

Few instructions write the program counter: jumps that are taken, calls and
returns, and those whose destination register it is. `Machine.target?` says
which address they write; there is none if the jump is not taken, if the value
is no integer or if it is no address of the program. Execution leaves the
program counter at the target, or else where it was.
-/

namespace StackMachine

namespace Machine

def top? (m : Machine) : Option Value :=
  if m.height = 0 then none else m.memory.slot? (m.height - 1)

/-- The live slot that lies `offset` below the frame. -/
def argument? (m : Machine) (offset : Int64) : Option Value :=
  let index := m.registers.fp - offset
  if index.toInt < 0 ∨ m.height ≤ index.toInt then none else m.memory.slot? index.toInt.toNat

/-- The value that an instruction is to write into the program counter. -/
def destination? (m : Machine) : Instruction → Option Value
  | .jump target => some (.int target)
  | .call target => some (.int target)
  | .jumpTop c target =>
    match m.top? with
    | some (.int i) => if c.holds (compare i.toInt 0) then some (.int target) else none
    | _ => none
  | .jumpFlag c target => if c.holds m.flag then some (.int target) else none
  | .jumpRegister r => some (m.registers.get r)
  | .ret => some (.int m.registers.rt)
  | .popRegister .pc => m.top?
  | .store .pc => m.top?
  | .setInt .pc i => some (.int i)
  | .setString .pc b => some (.bytes b)
  | .param .pc offset => m.argument? offset
  | _ => none

/-- The value as an address of the program, if it is one. -/
def address? (m : Machine) : Option Value → Option Int64
  | some (.int target) => if m.memory.inCode target = true then some target else none
  | _ => none

/-- The address of the program at which an instruction makes the machine go on,
    if it is another than that of the next instruction. -/
def target? (m : Machine) (i : Instruction) : Option Int64 :=
  m.address? (m.destination? i)

end Machine

namespace Action

/-- The action leaves the register as it is. -/
abbrev KeepsRegister (s : Register) (v : Value) (x : Action α) : Prop :=
  Keeps (fun m => m.registers.get s = v) (fun _ => True) x

section Keeps

variable {s : Register} {v : Value}

theorem get_withSp (hs : s ≠ .sp) (file : RegisterFile) (sp : Int64) :
    ({ file with sp } : RegisterFile).get s = file.get s := by
  cases s with
  | sp => exact absurd rfl hs
  | _ => rfl

theorem get_withPc (hs : s ≠ .pc) (file : RegisterFile) (pc : Int64) :
    ({ file with pc } : RegisterFile).get s = file.get s := by
  cases s with
  | pc => exact absurd rfl hs
  | _ => rfl

theorem keepsRegister_pop (hs : s ≠ .sp) (op : Opcode) : KeepsRegister s v (pop op) := by
  intro m hm
  rw [wp_pop]
  refine ⟨fun _ => ⟨trivial, hm⟩, fun _ => ?_⟩
  cases m.memory.slot? (m.height - 1) with
  | none => exact ⟨trivial, hm⟩
  | some w => exact (get_withSp hs m.registers _).trans hm

theorem keepsRegister_push (hs : s ≠ .sp) (w : Value) : KeepsRegister s v (push w) := by
  intro m hm
  rw [wp_push]
  exact ⟨fun _ => (get_withSp hs m.registers _).trans hm, fun _ => ⟨trivial, hm⟩⟩

theorem keepsRegister_swapTop : KeepsRegister s v swapTop := by
  intro m hm
  rw [wp_swapTop]
  exact ⟨fun _ => ⟨trivial, hm⟩, fun _ _ => hm, fun _ _ => ⟨trivial, hm⟩⟩

theorem keepsRegister_printLine (line : Text) : KeepsRegister s v (printLine line) := by
  intro m hm
  rw [wp_printLine]
  exact ⟨fun _ => hm, fun _ => ⟨trivial, hm⟩⟩

theorem keepsRegister_jump (hs : s ≠ .pc) (target : Int64) : KeepsRegister s v (jump target) := by
  intro m hm
  rw [wp_jump]
  exact ⟨fun _ => (get_withPc hs m.registers _).trans hm, fun _ => ⟨trivial, hm⟩⟩

theorem keepsRegister_setRegister {r : Register} (hr : r ≠ s) (w : Value) :
    KeepsRegister s v (setRegister r w) := by
  intro m hm
  by_cases hpc : r = .pc
  · subst hpc
    cases w with
    | int target => exact keepsRegister_jump hr.symm target m hm
    | bytes b => exact ⟨trivial, hm⟩
  by_cases hsp : r = .sp
  · subst hsp
    cases w with
    | int sp =>
      rw [wp_setRegister_sp_int]
      exact ⟨fun _ => ⟨trivial, hm⟩, fun _ => (get_withSp hr.symm m.registers _).trans hm⟩
    | bytes b => exact ⟨trivial, hm⟩
  · rw [wp_setRegister_of_ne hpc hsp]
    cases hset : m.registers.set? r w with
    | none => exact ⟨trivial, hm⟩
    | some registers => exact (RegisterFile.get_set?_of_ne hset hr).trans hm

/-- The stack pointer apart, only its destination, jumps and calls write registers. -/
theorem keepsRegister_execute {i : Instruction} (hs : s ≠ .sp) (hdest : i.destination? ≠ some s)
    (hjump : i.isJump → s ≠ .pc) (hcall : ∀ target, i ≠ .call target) :
    KeepsRegister s v (execute i) := by
  refine Closed.execute ?_
  exact {
    fault := fun _ => trivial
    live := fun _ _ => .inr trivial
    pop := keepsRegister_pop hs
    push := keepsRegister_push hs
    swap := keepsRegister_swapTop
    write := fun r hr w => keepsRegister_setRegister (fun hrs : r = s => hdest (hrs ▸ hr)) w
    jump := fun h target => keepsRegister_jump (hjump h) target
    call := fun target h => absurd h (hcall target)
    print := fun _ => keepsRegister_printLine
    flag := fun _ _ hm => hm
    trace := Keeps.modify fun _ hm => hm }

end Keeps

/-- The action leaves the program counter where it is. -/
abbrev KeepsPc (pc : Int64) (x : Action α) : Prop :=
  Keeps (fun m => m.registers.pc = pc) (fun _ => True) x

variable {pc : Int64}

theorem KeepsRegister.keepsPc {x : Action α} (hx : KeepsRegister .pc (.int pc) x) :
    KeepsPc pc x := by
  rintro m rfl
  refine (hx m rfl).mono (fun _ _ hm => Value.int.inj hm) ?_
  rintro t m' ⟨-, hm⟩
  exact ⟨trivial, Value.int.inj hm⟩

theorem keepsPc_execute {i : Instruction} (hdest : i.destination? ≠ some .pc)
    (hjump : i.isJump = false) (hcall : ∀ target, i ≠ .call target) :
    KeepsPc pc (execute i) :=
  KeepsRegister.keepsPc <|
    keepsRegister_execute (by decide) hdest (fun h => absurd h (by simp [hjump])) hcall

/-! ## Targets -/

/-- The action, which is to continue at `target` if there is one, does so; if it
    is trapped, there is none. -/
def GoesTo (target : Option Int64) (x : Action α) (m : Machine) : Prop :=
  wp x (fun _ m' => m'.registers.pc = target.getD m.registers.pc)
    (fun _ m' => m'.registers.pc = m.registers.pc ∧ target = none) m

variable {m : Machine}

theorem KeepsPc.goesTo {x : Action α} (hx : KeepsPc m.registers.pc x) : GoesTo none x m :=
  (hx m rfl).mono (fun _ _ h => h) fun _ _ h => ⟨h.2, rfl⟩

theorem GoesTo.andThen {target : Option Int64} {x : Action Unit} (hx : GoesTo target x m)
    (result : β) : GoesTo target (do x; return result) m := by
  unfold GoesTo
  rw [wp_bind]
  exact hx

theorem goesTo_jump (target : Int64) :
    GoesTo (m.address? (some (.int target))) (jump target) m := by
  unfold GoesTo
  rw [wp_jump]
  refine ⟨fun hin => ?_, fun hout => ⟨rfl, if_neg hout⟩⟩
  have haddress : m.address? (some (.int target)) = some target := if_pos hin
  rw [haddress]
  rfl

theorem goesTo_jump_if (c : Bool) (target : Int64) :
    GoesTo (m.address? (if c then some (.int target) else none))
      (if c then jump target else pure ()) m := by
  cases c with
  | true => exact goesTo_jump target
  | false => exact KeepsPc.goesTo (Keeps.pure ())

theorem goesTo_setRegister_pc (v : Value) :
    GoesTo (m.address? (some v)) (setRegister .pc v) m := by
  cases v with
  | int target => exact goesTo_jump target
  | bytes b => exact ⟨rfl, rfl⟩

/-- An action that goes on with the top of the stack, and with what it goes on. -/
theorem goesTo_top_bind {target : Option Int64} {f : Value → Action β} (op : Opcode)
    (hnone : m.top? = none → target = none)
    (hsome : ∀ v, m.top? = some v → GoesTo target (f v) m) : GoesTo target (top op >>= f) m := by
  unfold GoesTo
  rw [wp_bind, wp_top]
  unfold Machine.top? at hnone hsome
  refine ⟨fun hzero => ⟨rfl, hnone (if_pos hzero)⟩, fun hne => ?_⟩
  rw [if_neg hne] at hnone hsome
  cases hv : m.memory.slot? (m.height - 1) with
  | none => exact ⟨rfl, hnone hv⟩
  | some v => exact hsome v hv

theorem goesTo_pop_setRegister_pc (op : Opcode) (result : β) :
    GoesTo (m.address? m.top?) (do setRegister .pc (← pop op); return result) m := by
  unfold GoesTo Machine.top?
  rw [wp_bind, wp_pop]
  refine ⟨fun hzero => ⟨rfl, by rw [if_pos hzero]; rfl⟩, fun hne => ?_⟩
  rw [if_neg hne]
  cases hv : m.memory.slot? (m.height - 1) with
  | none => exact ⟨rfl, rfl⟩
  | some v => exact (goesTo_setRegister_pc v).andThen result

theorem goesTo_jumpTop (c : Condition) (target : Int64) :
    GoesTo (m.target? (.jumpTop c target)) (jumpTop c target) m := by
  refine goesTo_top_bind _ (fun hnone => ?_) fun v hv => ?_
  · unfold Machine.target? Machine.destination?
    rw [hnone]
    rfl
  · unfold Machine.target? Machine.destination?
    rw [hv]
    cases v with
    | bytes b => exact ⟨rfl, rfl⟩
    | int i => exact goesTo_jump_if _ target

theorem goesTo_call (target : Int64) :
    GoesTo (m.address? (some (.int target))) (call target) m := by
  unfold GoesTo call
  rw [wp_bind, wp_checkTarget]
  refine ⟨fun hin => ?_, fun hout => ⟨rfl, if_neg hout⟩⟩
  have haddress : m.address? (some (.int target)) = some target := if_pos hin
  rw [haddress]
  rfl

theorem goesTo_param_pc (offset : Int64) :
    GoesTo (m.address? (m.argument? offset)) (param .pc offset) m := by
  unfold GoesTo param
  rw [wp_bind, wp_get]
  unfold Machine.argument?
  dsimp only
  split
  · exact ⟨rfl, rfl⟩
  · cases hv : m.memory.slot? (m.registers.fp - offset).toInt.toNat with
    | none => exact ⟨rfl, rfl⟩
    | some v => exact goesTo_setRegister_pc v

/-- An instruction without a jump, a call or a destination is followed by the
    next one. -/
theorem goesTo_of_plain {i : Instruction} (htarget : m.destination? i = none)
    (hdest : i.destination? = none) (hjump : i.isJump = false)
    (hcall : ∀ target, i ≠ .call target) : GoesTo (m.target? i) (execute i) m := by
  rw [Machine.target?, htarget]
  exact (keepsPc_execute (by rw [hdest]; exact nofun) hjump hcall).goesTo

/-- So is one with a destination, unless that is the program counter. -/
theorem goesTo_of_destination {i : Instruction} {r : Register} (hi : i.destination? = some r)
    (hpc : r = .pc → GoesTo (m.target? i) (execute i) m) :
    GoesTo (m.target? i) (execute i) m := by
  by_cases hr : r = .pc
  · exact hpc hr
  have htarget : m.destination? i = none := by
    cases i <;> cases hi <;> cases r <;> first | rfl | exact absurd rfl hr
  have hkeeps : KeepsPc m.registers.pc (execute i) := by
    refine keepsPc_execute (by rw [hi]; exact fun h => hr (Option.some.inj h)) ?_ ?_
    · cases i <;> cases hi <;> rfl
    · rintro target rfl
      cases hi
  rw [Machine.target?, htarget]
  exact hkeeps.goesTo

/-- One case for each kind of instruction. -/
theorem goesTo_execute (i : Instruction) : GoesTo (m.target? i) (execute i) m := by
  cases i
  case halt | pushInt | pushString | pushRegister | pop | swap | dup | arithmetic | print
      | printRegister | dump | dumpRegisters | concat | compare | step =>
    exact goesTo_of_plain rfl rfl rfl nofun
  case jump target => exact (goesTo_jump target).andThen none
  case jumpTop c target => exact (goesTo_jumpTop c target).andThen none
  case call target => exact (goesTo_call target).andThen none
  case ret => exact (goesTo_jump m.registers.rt).andThen none
  case jumpFlag c target =>
    change GoesTo (m.address? (if c.holds m.flag = true then some (.int target) else none))
      (do
        if c.holds m.flag = true then jump target
        return none) m
    -- Whether the jump is taken has been decided by an earlier comparison.
    cases c.holds m.flag with
    | true => exact (goesTo_jump target).andThen none
    | false => exact rfl
  case jumpRegister r =>
    change GoesTo (m.address? (some (m.registers.get r)))
      (integer .jumpRegister (m.registers.get r) >>= fun target => do
        jump target
        return none) m
    cases m.registers.get r with
    | int target => exact (goesTo_jump target).andThen none
    | bytes b => exact ⟨rfl, rfl⟩
  case popRegister r =>
    refine goesTo_of_destination rfl fun hr => ?_
    subst hr
    exact goesTo_pop_setRegister_pc _ none
  case store r =>
    refine goesTo_of_destination rfl fun hr => ?_
    subst hr
    refine goesTo_top_bind _ (fun hnone => ?_) fun v hv => ?_
    · unfold Machine.target? Machine.destination?
      rw [hnone]
      rfl
    · unfold Machine.target? Machine.destination?
      rw [hv]
      exact (goesTo_setRegister_pc v).andThen none
  case setInt r i =>
    refine goesTo_of_destination rfl fun hr => ?_
    subst hr
    exact (goesTo_jump i).andThen none
  case setString r b =>
    refine goesTo_of_destination rfl fun hr => ?_
    subst hr
    exact (goesTo_setRegister_pc (.bytes b)).andThen none
  case param r offset =>
    refine goesTo_of_destination rfl fun hr => ?_
    subst hr
    exact (goesTo_param_pc offset).andThen none

end Action
end StackMachine
