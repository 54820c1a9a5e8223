-- SUMMARY: The machine on slots and the list machine, step by step.
import StackMachine.Proofs.Decoding
import StackMachine.Proofs.ListMachine
import StackMachine.Proofs.LiveStack
import StackMachine.Proofs.Reachability

/-!
# Refinement

`Machine.listed` forgets the slots above the stack pointer and the journal, and
reads the live ones as a list. Each elementary action then is a function on list
machines, so each instruction is, and a step of the machine is a step of the
list machine. Only writing the stack pointer has no counterpart: the list machine
has none.
-/

namespace StackMachine

/-! ## Fetching sees the program only -/

namespace Fetch

/-- The reading depends on the program and the program counter only. -/
def SeesCode (r : Fetch α) : Prop :=
  ∀ ⦃memory memory' : Memory⦄ (pc : Int64), memory.code = memory'.code →
    r memory pc = r memory' pc

theorem SeesCode.bind {r : Fetch α} {g : α → Fetch β} (hr : SeesCode r)
    (hg : ∀ a, SeesCode (g a)) : SeesCode (r >>= g) := by
  intro memory memory' pc hcode
  rw [bind_apply, bind_apply, hr pc hcode]
  cases r memory' pc with
  | ok a mid => exact hg a mid hcode
  | error f mid => rfl

theorem closed_seesCode : Closed SeesCode where
  pure _ _ _ _ _ := rfl
  throw _ _ _ _ _ _ := rfl
  get _ _ _ _ := rfl
  bind hr hg := hr.bind hg
  byte memory memory' pc hcode := by simp only [byte, Memory.byte?, hcode]

theorem seesCode_decode : SeesCode decode :=
  closed_seesCode.decode

end Fetch

/-! ## Abstraction -/

namespace Machine

variable {program : Bytes} {capacity : Nat} {m : Machine}

/-- The list machine that has the live values as its stack. -/
def listed (m : Machine) : ListMachine where
  program := m.memory.code.toList
  capacity := m.memory.capacity
  stack := m.live
  general := m.registers.general
  pc := m.registers.pc
  fp := m.registers.fp
  rt := m.registers.rt
  flag := m.flag
  fault := m.fault
  exitCode := m.exitCode
  tracing := m.tracing
  terminating := m.terminating
  output := m.output

/-- The stack pointer reads as the length of the list. -/
theorem InBounds.registers_listed (h : m.InBounds program capacity) :
    m.listed.registers = m.registers := by
  have hsp : Int64.ofNat m.live.length = m.registers.sp := by
    rw [← Int64.ofInt_eq_ofNat, ← h.toInt_sp, Int64.ofInt_toInt]
  simp [ListMachine.registers, listed, hsp]

theorem listed_ofProgram (program : Bytes) (config : Config) :
    (ofProgram program config).listed = .ofProgram program config := by
  simp only [listed, ofProgram, Memory.capacity_ofProgram]
  rfl

/-- A machine that differs from another in the live stack only. -/
theorem listed_of_frame {m' : Machine} {stack : List Value} (hlive : m'.live = stack)
    (hcap : m'.memory.capacity = m.memory.capacity)
    (hframe : m'.listed =
      { m.listed with capacity := m'.memory.capacity, stack := m'.live }) :
    m'.listed = m.listed.withStack stack := by
  rw [hframe, hcap, hlive]
  rfl

theorem Ready.popped_of_concat (h : m.Ready program capacity) {below : List Value} {v : Value}
    (hlive : m.live = below ++ [v]) :
    m.popped.Ready program capacity ∧ m.popped.live = below ∧
      m.popped.listed = m.listed.withStack below := by
  obtain ⟨hpopped, hbelow⟩ := h.popped (by simp [hlive])
  rw [hlive, List.dropLast_concat] at hbelow
  exact ⟨hpopped, hbelow, listed_of_frame hbelow (Memory.capacity_put ..) rfl⟩

theorem Ready.listed_pushed (h : m.Ready program capacity) (hcap : capacity < 2 ^ 63)
    (hroom : m.live.length < capacity) (v : Value) :
    (m.pushed v).listed = m.listed.withStack (m.live ++ [v]) :=
  listed_of_frame (h.pushed hcap hroom v).2 (Memory.capacity_put ..) rfl

theorem Ready.listed_swapped (h : m.Ready program capacity) {below : List Value} {x y : Value}
    (hlive : m.live = below ++ [x, y]) :
    m.swapped.listed = m.listed.withStack (below ++ [y, x]) :=
  listed_of_frame (h.swapped hlive).2 (Memory.capacity_swap ..) rfl

@[simp] theorem isAddress_listed (target : Int64) :
    m.listed.isAddress target = m.memory.inCode target := by
  have hlength : m.listed.program.length = m.memory.code.size := Array.length_toList
  rw [ListMachine.isAddress, hlength]
  rfl

end Machine

/-! ## Operations on integers -/

namespace Arithmetic

variable {op : Arithmetic} {left right : Int64}

theorem result?_of_zero (h : op = .div ∧ right = 0) : op.result? left right = none := by
  obtain ⟨rfl, rfl⟩ := h
  rfl

/-- The result is that of the integers, as a word. -/
theorem result?_eq_exact (h : ¬ (op = .div ∧ right = 0)) :
    op.result? left right = some (.ofInt (op.exact left.toInt right.toInt)) := by
  cases op with
  | add => simp [result?, exact]
  | sub => simp [result?, exact]
  | mul => simp [result?, exact]
  | div =>
    have hright : right ≠ 0 := fun hzero => h ⟨rfl, hzero⟩
    have hquotient : left / right = .ofInt (left.toInt.tdiv right.toInt) := by
      rw [← Int64.toInt_inj, Int64.toInt_div, Int64.toInt_ofInt]
    rw [result?, if_neg hright, hquotient, exact]

end Arithmetic

namespace Condition

theorem compares_eq_holds (c : Condition) (left right : Int) :
    c.compares left right = c.holds (compare left right) := by
  cases c with
  | greater => simp [compares, holds, compare_gt_iff_gt]
  | less => simp [compares, holds, compare_lt_iff_lt]
  | equal => simp [compares, holds]
  | unequal => simp [compares, holds]

theorem flagged_eq_holds (c : Condition) (s : ListMachine) : s.flagged c = c.holds s.flag := by
  unfold ListMachine.flagged
  cases c <;> cases s.flag <;> rfl

end Condition

/-! ## Actions -/

namespace Action

variable {program : Bytes} {capacity : Nat} {m : Machine} {s : ListMachine}

/-- The action leaves a machine that lists as `s`. A fault is recorded in `s`. -/
def Lists (x : Action α) (s : ListMachine) (m : Machine) : Prop :=
  wp x (fun _ m' => m'.listed = s) (fun t m' => ∃ f, t = .fault f ∧ m'.listed.fail f = s) m

theorem lists_pure (a : α) : Lists (pure a) m.listed m := rfl

theorem lists_fail (f : Fault) : Lists (fail f : Action α) (m.listed.fail f) m :=
  ⟨f, rfl, rfl⟩

theorem Lists.andThen {x : Action Unit} (hx : Lists x s m) (result : β) :
    Lists (do x; return result) s m := by
  unfold Lists
  rw [wp_bind]
  exact hx

theorem lists_get_bind {f : Machine → Action β} (hf : Lists (f m) s m) :
    Lists (get >>= f) s m :=
  hf

/-! ### The stack -/

theorem lists_top_bind (h : m.Ready program capacity) {f : Value → Action β}
    {go : Value → ListMachine} (op : Opcode) (hf : ∀ v, Lists (f v) (go v) m) :
    Lists (top op >>= f) (m.listed.withLast op go) m := by
  have hstack : m.listed.stack = m.live := rfl
  unfold Lists ListMachine.withLast
  rw [wp_bind, wp_top_live h, hstack]
  cases m.live.getLast? with
  | none => exact lists_fail (α := β) _
  | some v => exact hf v

theorem lists_pop_of_empty (h : m.Ready program capacity) (hlive : m.live = [])
    {f : Value → Action β} (op : Opcode) :
    Lists (pop op >>= f) (m.listed.fail (.stackUnderflow op)) m := by
  unfold Lists
  rw [wp_bind, wp_pop_live h, hlive]
  exact lists_fail (α := β) _

theorem lists_pop_of_concat (h : m.Ready program capacity) {below : List Value} {v : Value}
    (hlive : m.live = below ++ [v]) {f : Value → Action β} (op : Opcode)
    (hf : m.popped.Ready program capacity → m.popped.live = below →
      m.popped.listed = m.listed.withStack below → Lists (f v) s m.popped) :
    Lists (pop op >>= f) s m := by
  obtain ⟨hpopped, hbelow, hlisted⟩ := h.popped_of_concat hlive
  unfold Lists
  rw [wp_bind, wp_pop_live h, hlive, List.getLast?_concat]
  exact hf hpopped hbelow hlisted

theorem lists_pop_bind (h : m.Ready program capacity) {f : Value → Action β}
    {go : Value → ListMachine} (op : Opcode)
    (hf : ∀ v, m.popped.listed = m.listed.pop → Lists (f v) (go v) m.popped) :
    Lists (pop op >>= f) (m.listed.withLast op go) m := by
  have hstack : m.listed.stack = m.live := rfl
  obtain hlive | ⟨below, v, hlive⟩ := List.eq_nil_or_concat' m.live
  · rw [ListMachine.withLast, hstack, hlive]
    exact lists_pop_of_empty h hlive op
  · rw [ListMachine.withLast, hstack, hlive, List.getLast?_concat]
    refine lists_pop_of_concat h hlive op fun _ _ hlisted => hf v ?_
    rw [hlisted, ListMachine.pop, hstack, hlive, List.dropLast_concat]

theorem lists_pop (h : m.Ready program capacity) (op : Opcode) :
    Lists (discard (pop op)) (m.listed.withLast op fun _ => m.listed.pop) m := by
  have hpop := lists_pop_bind (f := pure) h op fun _ hlisted => hlisted
  unfold Lists at hpop ⊢
  rw [wp_bind] at hpop
  rw [wp_discard]
  exact hpop

theorem lists_push (h : m.Ready program capacity) (hcap : capacity < 2 ^ 63) (v : Value) :
    Lists (push v) (m.listed.push v) m := by
  have hlisted : m.listed.push v =
      if m.live.length < capacity then m.listed.withStack (m.live ++ [v])
      else m.listed.fail .stackOverflow := by
    rw [← h.capacity_eq]
    rfl
  unfold Lists
  rw [wp_push_live h, hlisted]
  by_cases hroom : m.live.length < capacity
  · simpa [hroom] using h.listed_pushed hcap hroom v
  · simp [hroom]

theorem lists_swapTop (h : m.Ready program capacity) : Lists swapTop m.listed.swap m := by
  unfold Lists
  rw [wp_swapTop_live h]
  split
  · rename_i hlow
    rw [ListMachine.swap_of_lt hlow]
    exact lists_fail (α := Unit) _
  · rename_i hhigh
    obtain ⟨below, lower, upper, hlive⟩ := ListMachine.exists_two_of_le (Nat.le_of_not_lt hhigh)
    rw [ListMachine.swap_of_two hlive]
    exact h.listed_swapped hlive

/-- Two pops, and a push of what the popped values combine to. -/
theorem lists_combine (h : m.Ready program capacity) (hcap : capacity < 2 ^ 63) (op : Opcode)
    {result : Value → Value → Except Fault Value} {f : Value → Value → Action Unit}
    (hf : ∀ left right, f left right =
      match result left right with
      | .ok v => push v
      | .error e => fail e) :
    Lists (do let right ← pop op; let left ← pop op; f left right)
      (m.listed.combine op result) m := by
  obtain hlive | ⟨rest, right, hlive⟩ := List.eq_nil_or_concat' m.live
  · rw [ListMachine.combine_of_empty hlive]
    exact lists_pop_of_empty h hlive op
  refine lists_pop_of_concat h hlive op fun hready hrest hlisted => ?_
  obtain rfl | ⟨below, left, rfl⟩ := List.eq_nil_or_concat' rest
  · rw [ListMachine.combine_of_single hlive, ← hlisted]
    exact lists_pop_of_empty hready hrest op
  refine lists_pop_of_concat hready hrest op fun hready' hbelow hlisted' => ?_
  have hlive' : m.live = below ++ [left, right] := by simpa using hlive
  have hlisted' : m.popped.popped.listed = m.listed.withStack below := by
    rw [hlisted', hlisted, ListMachine.withStack_withStack]
  rw [ListMachine.combine_of_two hlive', hf]
  cases result left right with
  | error e =>
    dsimp only
    rw [← hlisted']
    exact lists_fail e
  | ok v =>
    have hroom : below.length < m.listed.capacity := by
      have hle := h.height_le
      rw [← h.length_live, hlive', List.length_append] at hle
      exact Nat.lt_of_lt_of_le (Nat.lt_add_of_pos_right Nat.two_pos) hle
    dsimp only
    rw [← ListMachine.push_withStack hroom, ← hlisted']
    exact lists_push hready' hcap v

theorem lists_arithmetic (h : m.Ready program capacity) (hcap : capacity < 2 ^ 63)
    (op : Arithmetic) :
    Lists (arithmetic op) (m.listed.combine op.opcode (ListMachine.calculate op)) m := by
  refine lists_combine h hcap _ fun left right => ?_
  cases left with
  | bytes b => rfl
  | int left =>
    cases right with
    | bytes b => rfl
    | int right =>
      dsimp only [ListMachine.calculate]
      by_cases hzero : op = .div ∧ right = 0
      · rw [if_pos hzero, Arithmetic.result?_of_zero hzero, hzero.1]
        rfl
      · rw [if_neg hzero, Arithmetic.result?_eq_exact hzero]

theorem lists_concat (h : m.Ready program capacity) (hcap : capacity < 2 ^ 63) :
    Lists concat (m.listed.combine .concat ListMachine.join) m := by
  refine lists_combine h hcap _ fun left right => ?_
  cases left with
  | int left => rfl
  | bytes left => cases right <;> rfl

/-! ### Registers and output -/

theorem lists_jump (target : Int64) : Lists (jump target) (m.listed.jump target) m := by
  unfold Lists ListMachine.jump
  rw [wp_jump, Machine.isAddress_listed]
  by_cases hin : m.memory.inCode target = true
  · simp only [hin, if_true, not_true, false_implies, and_true, true_implies]
    rfl
  · simp [hin]

theorem lists_setRegister {r : Register} (hr : r ≠ .sp) (v : Value) :
    Lists (setRegister r v) (m.listed.write r v) m := by
  cases r with
  | sp => exact absurd rfl hr
  | pc =>
    cases v with
    | int target => exact lists_jump target
    | bytes b => exact lists_fail (α := Unit) _
  | general i => rfl
  | fp =>
    cases v with
    | int i => rfl
    | bytes b => exact lists_fail (α := Unit) _
  | rt =>
    cases v with
    | int i => rfl
    | bytes b => exact lists_fail (α := Unit) _

theorem lists_printLine (line : Text) : Lists (printLine line) (m.listed.print line) m := by
  have houtput : m.listed.output = m.output := rfl
  unfold Lists ListMachine.print
  rw [wp_printLine, houtput]
  dsimp only
  generalize Utf8.encode (line ++ ['\n']) = bytes
  by_cases hfits : m.output.fits bytes.length = true
  · simp only [hfits, if_true, not_true, false_implies, and_true, true_implies]
    rfl
  · rw [if_neg hfits]
    exact ⟨fun h => absurd h hfits, fun _ => ⟨_, rfl, rfl⟩⟩

theorem lists_integer_bind {f : Int64 → Action β} {go : Int64 → ListMachine} (op : Opcode)
    (v : Value) (hf : ∀ i, Lists (f i) (go i) m) :
    Lists (integer op v >>= f) (m.listed.withInteger op v go) m := by
  cases v with
  | int i => exact hf i
  | bytes b => exact lists_fail (α := β) _

theorem lists_call (h : m.Ready program capacity) (target : Int64) :
    Lists (call target) (m.listed.call target) m := by
  unfold Lists call ListMachine.call
  rw [wp_bind, wp_checkTarget, Machine.isAddress_listed, h.registers_listed]
  by_cases hin : m.memory.inCode target = true
  · simp only [hin, if_true, not_true, false_implies, and_true, true_implies]
    rfl
  · simp [hin]

theorem lists_param (h : m.Ready program capacity) {r : Register} (hr : r ≠ .sp)
    (offset : Int64) : Lists (param r offset) (m.listed.param r offset) m := by
  have hargument : m.argument? offset = m.listed.element? (m.listed.fp - offset) :=
    h.argument?_eq offset
  unfold Lists ListMachine.param
  rw [wp_param_live h, hargument]
  cases m.listed.element? (m.listed.fp - offset) with
  | none => exact lists_fail (α := Unit) _
  | some v => exact lists_setRegister hr v

theorem lists_dump (h : m.Ready program capacity) :
    Lists dump (m.listed.print (Value.renderStack m.live)) m := by
  unfold Lists
  rw [wp_dump_live h]
  exact lists_printLine _

theorem lists_jump_if (c : Bool) (target : Int64) :
    Lists (if c then jump target else pure ()) (if c then m.listed.jump target else m.listed)
      m := by
  cases c with
  | true => exact lists_jump target
  | false => exact lists_pure ()

theorem lists_compare (h : m.Ready program capacity) (left right : Register) :
    Lists (execute (.compare left right)) (m.listed.compare left right) m := by
  unfold Lists execute ListMachine.compare
  simp only [wp_bind, register, wp_get, wp_pure, h.registers_listed]
  cases m.registers.get left with
  | bytes b => exact lists_fail (α := Unit) _
  | int left =>
    cases m.registers.get right with
    | bytes b => exact lists_fail (α := Unit) _
    | int right => rfl

theorem lists_jumpFlag (c : Condition) (target : Int64) :
    Lists (execute (.jumpFlag c target))
      (if m.listed.flagged c then m.listed.jump target else m.listed) m := by
  have hflag : m.listed.flagged c = c.holds m.flag := c.flagged_eq_holds m.listed
  rw [hflag]
  unfold Lists execute
  simp only [wp_bind, wp_get]
  cases c.holds m.flag with
  | true => exact (lists_jump target).andThen none
  | false => exact rfl

/-! ## Instructions -/

/-- One case for each instruction, unless it names the stack pointer as the
    register to be written. -/
theorem lists_execute (h : m.Ready program capacity) (hcap : capacity < 2 ^ 63)
    {i : Instruction} (hsp : i.destination? ≠ some .sp) :
    Lists (execute i) (m.listed.execute i) m := by
  have hregister (r : Register) : m.listed.registers.get r = m.registers.get r := by
    rw [h.registers_listed]
  have hdest {r : Register} (hr : i.destination? = some r) : r ≠ .sp :=
    fun hrsp => hsp (hrsp ▸ hr)
  cases i with
  | halt code => exact lists_pure _
  | pushInt i => exact (lists_push h hcap _).andThen none
  | pushString b => exact (lists_push h hcap _).andThen none
  | pushRegister r =>
    rw [ListMachine.execute, hregister]
    exact (lists_push h hcap _).andThen none
  | pop => exact (lists_pop h _).andThen none
  | popRegister r =>
    refine lists_pop_bind h _ fun v hlisted => ?_
    rw [← hlisted]
    exact (lists_setRegister (hdest rfl) v).andThen none
  | store r =>
    exact lists_top_bind h _ fun v => (lists_setRegister (hdest rfl) v).andThen none
  | swap => exact (lists_swapTop h).andThen none
  | dup => exact lists_top_bind h _ fun v => (lists_push h hcap v).andThen none
  | arithmetic op => exact (lists_arithmetic h hcap op).andThen none
  | setInt r i => exact (lists_setRegister (hdest rfl) _).andThen none
  | setString r b => exact (lists_setRegister (hdest rfl) _).andThen none
  | jump target => exact (lists_jump target).andThen none
  | jumpTop c target =>
    refine Lists.andThen ?_ none
    refine lists_top_bind h _ fun v => lists_integer_bind _ v fun i => ?_
    rw [Condition.compares_eq_holds]
    exact lists_jump_if _ target
  | jumpRegister r =>
    rw [ListMachine.execute, hregister]
    exact lists_integer_bind _ _ fun target => (lists_jump target).andThen none
  | print => exact lists_top_bind h _ fun v => (lists_printLine _).andThen none
  | printRegister r =>
    rw [ListMachine.execute, hregister]
    exact (lists_printLine _).andThen none
  | dump => exact (lists_dump h).andThen none
  | dumpRegisters =>
    rw [ListMachine.execute, h.registers_listed]
    exact lists_get_bind ((lists_printLine _).andThen none)
  | ret => exact lists_get_bind ((lists_jump _).andThen none)
  | call target => exact (lists_call h target).andThen none
  | concat => exact (lists_concat h hcap).andThen none
  | param r offset => exact (lists_param h (hdest rfl) offset).andThen none
  | compare left right => exact lists_compare h left right
  | jumpFlag c target => exact lists_jumpFlag c target
  | step => exact rfl

end Action

end StackMachine
