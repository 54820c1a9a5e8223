-- SUMMARY: Straight-line code runs through or faults where the height of the stack says so.
import StackMachine.Proofs.Frames
import StackMachine.Proofs.Runs

/-!
# Straight-line code

Instructions that move values between the stack and the general registers depend on the
height of the stack only: each one needs so many values, and changes the height by a fixed
amount. So the height before every instruction of a block is known from its start, and
with it whether the block runs through or where it faults.
-/

namespace StackMachine

namespace Instruction

/-- The instruction moves values between the stack, its operands and the general registers. -/
def isMove : Instruction → Bool
  | pushInt _ | pushString _ | pushRegister _ | pop | swap | dup => true
  | popRegister (.general _) | store (.general _) => true
  | _ => false

/-- The number of values on top of the stack that a move looks at. -/
def needs : Instruction → Nat
  | swap => 2
  | pop | popRegister _ | store _ | dup => 1
  | _ => 0

/-- Does a move put one more value on the stack? -/
def pushes : Instruction → Bool
  | pushInt _ | pushString _ | pushRegister _ | dup => true
  | _ => false

/-- What a move adds to the height of the stack. -/
def rise : Instruction → Int
  | pushInt _ | pushString _ | pushRegister _ | dup => 1
  | pop | popRegister _ => -1
  | _ => 0

/-- On a stack of the height there are the values that the move needs, and there is room for
    the one that it pushes. -/
def Suits (i : Instruction) (capacity : Nat) (height : Int) : Prop :=
  i.needs ≤ height ∧ (i.pushes → height ≠ capacity)

/-- None of the values that a move needs is one of the lowest `base` ones. -/
def StaysAbove (i : Instruction) (base : Nat) (height : Int) : Prop :=
  0 < i.needs → base + i.needs ≤ height

/-- What the instructions of a block add to the height of the stack. -/
def climb (block : List Instruction) : Int :=
  (block.map rise).sum

/-- The condition holds of each instruction of a block and the height of the stack before
    it, from the height before the first one on. -/
def EachAt (P : Instruction → Int → Prop) : Int → List Instruction → Prop
  | _, [] => True
  | height, i :: block => P i height ∧ EachAt P (height + i.rise) block

instance (i : Instruction) (capacity : Nat) (height : Int) :
    Decidable (i.Suits capacity height) :=
  inferInstanceAs (Decidable (_ ∧ _))

instance (i : Instruction) (base : Nat) (height : Int) : Decidable (i.StaysAbove base height) :=
  inferInstanceAs (Decidable (_ → _))

instance decidableEachAt {P : Instruction → Int → Prop} [h : ∀ i height, Decidable (P i height)] :
    (height : Int) → (block : List Instruction) → Decidable (EachAt P height block)
  | _, [] => .isTrue trivial
  | height, i :: block =>
    @instDecidableAnd _ _ (h i height) (decidableEachAt (height + i.rise) block)

theorem climb_cons (i : Instruction) (block : List Instruction) :
    climb (i :: block) = i.rise + climb block := by
  simp [climb]

/-- If the condition does not hold of all, it fails first at one of them. -/
theorem exists_first_of_not_eachAt {P : Instruction → Int → Prop} {height : Int}
    {block : List Instruction} (h : ¬ EachAt P height block) :
    ∃ before i after, block = before ++ i :: after ∧ EachAt P height before ∧
      ¬ P i (height + climb before) := by
  induction block generalizing height with
  | nil => exact absurd trivial h
  | cons i block ih =>
    by_cases hi : P i height
    · obtain ⟨before, j, after, rfl, hbefore, hj⟩ := ih fun hblock => h ⟨hi, hblock⟩
      refine ⟨i :: before, j, after, rfl, ⟨hi, hbefore⟩, ?_⟩
      rwa [climb_cons, ← Int.add_assoc]
    · exact ⟨[], i, block, rfl, trivial, by simpa [climb] using hi⟩

theorem handled_le_needs {i : Instruction} (hi : i.isMove) : i.handled ≤ i.needs := by
  cases i <;> first | exact Nat.le_refl _ | exact Nat.zero_le _ | cases hi

theorem spares_sp_of_isMove {i : Instruction} (hi : i.isMove) : i.destination? ≠ some .sp := by
  cases i with
  | popRegister r | store r =>
    cases r with
    | general r => exact nofun
    | _ => cases hi
  | _ => first | cases hi; done | exact nofun

theorem exitCode?_of_isMove {i : Instruction} (hi : i.isMove) : i.exitCode? = none := by
  cases i <;> first | rfl | cases hi

end Instruction

/-! ## List machines -/

namespace ListMachine

variable {s : ListMachine} {i : Instruction}

theorem withLast_of_empty (h : s.stack.length < 1) (op : Opcode) (go : Value → ListMachine) :
    s.withLast op go = s.fail (.stackUnderflow op) := by
  have hempty : s.stack = [] := List.length_eq_zero_iff.1 (by omega)
  simp [withLast, hempty]

theorem exists_withLast_eq (h : 1 ≤ s.stack.length) (op : Opcode) (go : Value → ListMachine) :
    ∃ v, s.withLast op go = go v := by
  have hne : s.stack ≠ [] := List.ne_nil_of_length_pos h
  exact ⟨s.stack.getLast hne, by simp [withLast, List.getLast?_eq_getLast_of_ne_nil hne]⟩

/-- What a move comes to that finds what it needs: another stack, so much higher or lower,
    and other general registers. -/
def Moves (s s' : ListMachine) (rise : Int) : Prop :=
  ∃ stack general, s' = { s with stack, general } ∧ (stack.length : Int) = s.stack.length + rise

theorem moves_push (h : s.stack.length < s.capacity) (v : Value) : s.Moves (s.push v) 1 :=
  ⟨_, s.general, push_withStack h v, by simp⟩

theorem moves_pop (h : 1 ≤ s.stack.length) : s.Moves s.pop (-1) := by
  refine ⟨s.stack.dropLast, s.general, rfl, ?_⟩
  rw [List.length_dropLast]
  omega

theorem moves_swap (h : 2 ≤ s.stack.length) : s.Moves s.swap 0 := by
  obtain ⟨below, lower, upper, hstack⟩ := exists_two_of_le h
  exact ⟨_, s.general, swap_of_two hstack, by simp [hstack]⟩

theorem Moves.write {s' : ListMachine} {rise : Int} (h : s.Moves s' rise) (r : Fin 10)
    (v : Value) : s.Moves (s'.write (.general r) v) rise := by
  obtain ⟨stack, general, rfl, hlength⟩ := h
  exact ⟨stack, general.set r v r.isLt, rfl, hlength⟩

theorem moves_refl (s : ListMachine) : s.Moves s 0 :=
  ⟨s.stack, s.general, rfl, (Int.add_zero _).symm⟩

/-- One case for each move. -/
theorem moves_execute (hi : i.isMove) (hneeds : i.needs ≤ s.stack.length)
    (hroom : i.pushes → s.stack.length < s.capacity) : s.Moves (s.execute i) i.rise := by
  cases i with
  | pushInt | pushString | pushRegister => exact moves_push (hroom rfl) _
  | pop =>
    obtain ⟨v, hv⟩ := exists_withLast_eq hneeds .pop fun _ => s.pop
    rw [execute, hv]
    exact moves_pop hneeds
  | popRegister r =>
    obtain ⟨v, hv⟩ := exists_withLast_eq hneeds .popRegister fun v => s.pop.write r v
    rw [execute, hv]
    cases r with
    | general r => exact (moves_pop hneeds).write r v
    | _ => cases hi
  | store r =>
    obtain ⟨v, hv⟩ := exists_withLast_eq hneeds .store fun v => s.write r v
    rw [execute, hv]
    cases r with
    | general r => exact s.moves_refl.write r v
    | _ => cases hi
  | swap => exact moves_swap hneeds
  | dup =>
    obtain ⟨v, hv⟩ := exists_withLast_eq hneeds .dup fun v => s.push v
    rw [execute, hv]
    exact moves_push (hroom rfl) v
  | _ => cases hi

/-- A move that does not find what it needs does nothing but underflow. -/
theorem execute_of_few (hi : i.isMove) (h : s.stack.length < i.needs) :
    s.execute i = s.fail (.stackUnderflow i.opcode) := by
  cases i with
  | pop | popRegister | store | dup => exact withLast_of_empty h _ _
  | swap => exact swap_of_lt h
  | _ => first | cases hi; done | exact absurd h (Nat.not_lt_zero _)

/-- A push without room does nothing but overflow. -/
theorem execute_of_full (hi : i.pushes) (hneeds : i.needs ≤ s.stack.length)
    (h : ¬ s.stack.length < s.capacity) : s.execute i = s.fail .stackOverflow := by
  cases i with
  | pushInt | pushString | pushRegister => exact if_neg h
  | dup =>
    obtain ⟨v, hv⟩ := exists_withLast_eq hneeds .dup fun v => s.push v
    rw [execute, hv]
    exact if_neg h
  | _ => cases hi

end ListMachine

/-! ## Blocks -/

/-- The instructions lie one behind the other in the program, from the offset on. -/
def Coded (program : Bytes) : Nat → List Instruction → Prop
  | _, [] => True
  | offset, i :: block =>
    (∃ next, Entry.read? ⟨offset, program.drop offset⟩ =
      .ok (⟨offset, i.opcode, i.operands⟩, next)) ∧
    Coded program (offset + i.encode.length) block

/-- The bytes of instructions that lie in the program are read as these instructions. -/
theorem coded_of_isPrefix {program : Bytes} {offset : Nat} {block : List Instruction}
    (hforms : ∀ i ∈ block, List.Forall₂ Operand.OfKind i.opcode.layout.kinds i.operands)
    (h : block.flatMap (·.encode) <+: program.drop offset) : Coded program offset block := by
  induction block generalizing offset with
  | nil => trivial
  | cons i block ih =>
    obtain ⟨rest, hrest⟩ := h
    rw [List.flatMap_cons, List.append_assoc] at hrest
    obtain ⟨hi, hblock⟩ := List.forall_mem_cons.1 hforms
    have hread := @Entry.read?_encode ⟨offset, i.opcode, i.operands⟩ hi
      (block.flatMap (·.encode) ++ rest)
    change Entry.read? ⟨offset, i.encode ++ _⟩ = _ at hread
    rw [hrest] at hread
    refine ⟨⟨_, hread⟩, ih hblock ⟨rest, ?_⟩⟩
    rw [← List.drop_drop, ← hrest, List.drop_left]

theorem Coded.of_append {program : Bytes} {offset : Nat} {before block : List Instruction}
    (h : Coded program offset (before ++ block)) :
    Coded program offset before ∧
      Coded program (offset + (before.flatMap (·.encode)).length) block := by
  induction before generalizing offset with
  | nil => exact ⟨trivial, h⟩
  | cons i before ih =>
    obtain ⟨hread, hrest⟩ := h
    obtain ⟨hbefore, hblock⟩ := ih hrest
    rw [List.flatMap_cons, List.length_append, ← Nat.add_assoc]
    exact ⟨⟨hread, hbefore⟩, hblock⟩

namespace Machine

variable {program : Bytes} {config : Config} {capacity : Nat} {m : Machine} {i : Instruction}
  {block : List Instruction}

/-- The machine has not ended and is not asked to stop. -/
structure Running (m : Machine) : Prop where
  fault : m.fault = none
  exitCode : m.exitCode = none
  terminating : m.terminating = false

/-- The next steps execute the instructions, one each. -/
def Performs : Machine → List Instruction → Prop
  | _, [] => True
  | m, i :: block => m.Executes i ∧ (m.after .step).Performs block

/-- As many steps as the block has instructions execute it without a fault, up to behind its
    last byte. The lowest values stay where they are if no instruction needs one of them. -/
structure RunsThrough (m : Machine) (block : List Instruction) : Prop where
  performs : m.Performs block
  replies : m.replies block.length = List.replicate block.length (.ok .running)
  running : (m.afterSteps block.length).Running
  pc : (m.afterSteps block.length).registers.pc.toInt =
    m.registers.pc.toInt + (block.flatMap (·.encode)).length
  sp : (m.afterSteps block.length).registers.sp.toInt =
    m.registers.sp.toInt + Instruction.climb block
  kept : ∀ base ≤ m.live.length,
    Instruction.EachAt (·.StaysAbove base) m.registers.sp.toInt block →
      m.live.take base <+: (m.afterSteps block.length).live

/-! ## Steps -/

section Steps

variable (hsize : program.length < 2 ^ 63) (hcap : capacity < 2 ^ 63)
include hsize

theorem Bounded.executes_of_coded {offset : Nat} (hm : m.Bounded program capacity)
    (hrun : m.Running) (hpc : m.registers.pc.toInt = offset)
    (h : Coded program offset (i :: block)) : m.Executes i := by
  obtain ⟨⟨next, hread⟩, -⟩ := h
  exact Ready.executes_of_read? hsize ⟨hm.toInBounds, hrun.fault, hrun.exitCode⟩
    hrun.terminating hpc hread

include hcap

/-- A move keeps what it does not need. -/
theorem Bounded.isPrefix_live_of_staysAbove {base : Nat} (hm : m.Bounded program capacity)
    (h : m.Executes i) (hi : i.isMove) (hbase : base ≤ m.live.length)
    (habove : i.StaysAbove base m.registers.sp.toInt) :
    m.live.take base <+: (m.after .step).live := by
  refine hm.isPrefix_live_step hsize hcap hbase (fun j hj => ?_) fun j hj index hindex => ?_
  · rw [hj.unique h]
    exact Instruction.spares_sp_of_isMove hi
  · rw [hj.unique h, Handles, ← hm.length_live]
    have hhandled := Instruction.handled_le_needs hi
    rw [Instruction.StaysAbove, hm.toInt_sp] at habove
    omega

/-- A move that suits the height goes on behind itself, with the stack as much higher. -/
theorem Bounded.runsThrough_of_suits (hm : m.Bounded program capacity) (h : m.Executes i)
    (hi : i.isMove) (hsuits : i.Suits capacity m.registers.sp.toInt) : m.RunsThrough [i] := by
  obtain ⟨hneeds, hroom⟩ := hsuits
  rw [hm.toInt_sp] at hneeds hroom
  have hlength := hm.length_live_le
  have hcapacity : m.listed.capacity = capacity := hm.capacity_eq
  obtain ⟨stack, general, heq, hheight⟩ := ListMachine.moves_execute
    (s := m.listed.goTo (m.registers.pc + .ofNat i.encode.length)) hi (Int.ofNat_le.1 hneeds)
    fun hpush => by
      have hne := hroom hpush
      change m.live.length < m.listed.capacity
      omega
  have hcode := Instruction.exitCode?_of_isMove hi
  have hlisted := hm.listed_after_step hsize hcap h (Instruction.spares_sp_of_isMove hi) hcode
  rw [heq] at hlisted
  have hlive : (m.after .step).live = stack := congrArg ListMachine.stack hlisted
  have hpc : (m.after .step).registers.pc = m.registers.pc + .ofNat i.encode.length :=
    congrArg ListMachine.pc hlisted
  exact {
    performs := ⟨h, trivial⟩
    replies := by
      rw [List.length_singleton, replies, replies, hm.step_of_not_halt hsize hcap h hcode]
      rfl
    running :=
      { fault := (congrArg ListMachine.fault hlisted).trans h.1
        exitCode := (congrArg ListMachine.exitCode hlisted).trans h.2.1
        terminating := (congrArg ListMachine.terminating hlisted).trans h.2.2.1 }
    pc := by
      have hnext := (hm.toInt_next_of_executes hsize h).1
      rw [List.flatMap_singleton, ← hnext, ← hpc]
      rfl
    sp := by
      have hsp := (hm.after hsize hcap .step).toInt_sp
      rw [hlive, hheight] at hsp
      rw [hm.toInt_sp, Instruction.climb, List.map_singleton, List.sum_singleton]
      exact hsp
    kept := fun base hbase habove =>
      hm.isPrefix_live_of_staysAbove hsize hcap h hi hbase habove.1 }

/-- A move that does not suit the height faults for it. -/
theorem Bounded.fault_of_not_suits (hm : m.Bounded program capacity) (h : m.Executes i)
    (hi : i.isMove) (hsuits : ¬ i.Suits capacity m.registers.sp.toInt) :
    (m.after .step).fault = some (if i.needs ≤ m.registers.sp.toInt then .stackOverflow
      else .stackUnderflow i.opcode) := by
  have hlisted := hm.listed_after_step hsize hcap h (Instruction.spares_sp_of_isMove hi)
    (Instruction.exitCode?_of_isMove hi)
  have hfault := congrArg ListMachine.fault hlisted
  change (m.after .step).fault = _ at hfault
  have hcapacity : m.listed.capacity = capacity := hm.capacity_eq
  rw [Instruction.Suits, hm.toInt_sp] at hsuits
  rw [hfault, hm.toInt_sp]
  split
  · rename_i hneeds
    obtain ⟨hpushes, hfull⟩ := Classical.not_imp.1 fun hroom => hsuits ⟨hneeds, hroom⟩
    have hnone : ¬ m.live.length < m.listed.capacity := by omega
    rw [ListMachine.execute_of_full hpushes (Int.ofNat_le.1 hneeds) hnone]
    rfl
  · rename_i hneeds
    rw [ListMachine.execute_of_few hi (Int.ofNat_lt.1 (Int.not_le.1 hneeds))]
    rfl

end Steps

/-! ## Runs -/

theorem runsThrough_nil (hrun : m.Running) : m.RunsThrough [] where
  performs := trivial
  replies := rfl
  running := hrun
  pc := (Int.add_zero _).symm
  sp := (Int.add_zero _).symm
  kept := fun base _ _ => List.take_prefix base m.live

theorem RunsThrough.pc_step (h : m.RunsThrough [i]) :
    (m.after .step).registers.pc.toInt = m.registers.pc.toInt + i.encode.length := by
  have hpc := h.pc
  rwa [List.flatMap_singleton] at hpc

theorem RunsThrough.sp_step (h : m.RunsThrough [i]) :
    (m.after .step).registers.sp.toInt = m.registers.sp.toInt + i.rise := by
  have hsp := h.sp
  rwa [Instruction.climb, List.map_singleton, List.sum_singleton] at hsp

/-- A block runs through if its first instruction does and then the others. -/
theorem RunsThrough.cons (hi : m.RunsThrough [i]) (h : (m.after .step).RunsThrough block) :
    m.RunsThrough (i :: block) where
  performs := ⟨hi.performs.1, h.performs⟩
  replies := by
    have hreply : returned m.step = .ok .running := List.head_eq_of_cons_eq hi.replies
    rw [List.length_cons, Machine.replies, h.replies, hreply]
    rfl
  running := h.running
  pc := by
    rw [List.flatMap_cons, List.length_append, Int.natCast_add, ← Int.add_assoc, ← hi.pc_step]
    exact h.pc
  sp := by
    rw [Instruction.climb_cons, ← Int.add_assoc, ← hi.sp_step]
    exact h.sp
  kept := by
    rintro base hbase ⟨hfirst, hrest⟩
    have hstep : m.live.take base <+: (m.after .step).live := hi.kept base hbase ⟨hfirst, trivial⟩
    have hlength := hstep.length_le
    rw [List.length_take_of_le hbase] at hlength
    have htake := List.prefix_iff_eq_take.1 hstep
    rw [List.length_take_of_le hbase] at htake
    rw [htake]
    rw [← hi.sp_step] at hrest
    exact h.kept base hlength hrest

section Runs

variable (hsize : program.length < 2 ^ 63) (hcap : capacity < 2 ^ 63)
include hsize hcap

/-- A block of moves runs through if each of them suits the height that it finds. -/
theorem Bounded.runsThrough_of_eachAt {offset : Nat} (hm : m.Bounded program capacity)
    (hrun : m.Running) (hmoves : ∀ i ∈ block, i.isMove) (hpc : m.registers.pc.toInt = offset)
    (hcoded : Coded program offset block)
    (hsuits : Instruction.EachAt (·.Suits capacity) m.registers.sp.toInt block) :
    m.RunsThrough block := by
  induction block generalizing m offset with
  | nil => exact runsThrough_nil hrun
  | cons i block ih =>
    obtain ⟨hi, hblock⟩ := List.forall_mem_cons.1 hmoves
    obtain ⟨hfirst, hrest⟩ := hsuits
    have hexecutes := hm.executes_of_coded hsize hrun hpc hcoded
    have hstep := hm.runsThrough_of_suits hsize hcap hexecutes hi hfirst
    have hnext := hstep.pc_step
    rw [hpc] at hnext
    rw [← hstep.sp_step] at hrest
    exact hstep.cons (ih (hm.after hsize hcap .step) hstep.running hblock hnext hcoded.2 hrest)

end Runs

/-- Straight-line code keeps the discipline of the stack. Take a block of moves anywhere in a
    program, and a machine that is running at its first byte, in any state that it can get
    into. If every move of the block finds the values that it needs and no value is pushed
    onto a full stack, the block runs through. If moreover no move needs one of the values
    that were on the stack before the block, they are still there behind it. So a block
    with as many pushes as pops restores the stack pointer and the stack. Otherwise the
    block runs through up to the first move that does not find what it needs, and this one
    faults: the stack underflows for lack of values, and overflows for lack of room. -/
theorem straight_line_keeps_discipline {offset : Nat} {stack : List Value}
    (hsize : program.length < 2 ^ 63) (hstack : config.stackSize < 2 ^ 63)
    (hm : Reachable program config m) (hrun : m.Running) (hmoves : ∀ i ∈ block, i.isMove)
    (hpc : m.registers.pc.toInt = offset) (hcoded : Coded program offset block)
    (hlive : m.stack? = some stack) :
    m.registers.sp.toInt = stack.length ∧
    (Instruction.EachAt (·.Suits config.stackSize) stack.length block →
      m.RunsThrough block ∧
      (Instruction.climb block = 0 →
        (m.afterSteps block.length).registers.sp = m.registers.sp) ∧
      (Instruction.EachAt (·.StaysAbove stack.length) stack.length block →
        ∃ above, (m.afterSteps block.length).stack? = some (stack ++ above) ∧
          (Instruction.climb block = 0 → above = []))) ∧
    (¬ Instruction.EachAt (·.Suits config.stackSize) stack.length block →
      ∃ before i after, block = before ++ i :: after ∧
        Instruction.EachAt (·.Suits config.stackSize) stack.length before ∧
        ¬ i.Suits config.stackSize (stack.length + Instruction.climb before) ∧
        m.RunsThrough before ∧
        let faulting := m.afterSteps before.length
        faulting.Executes i ∧ faulting.step = .ok .running (faulting.after .step) ∧
        (faulting.after .step).fault =
          some (if i.needs ≤ stack.length + Instruction.climb before then .stackOverflow
            else .stackUnderflow i.opcode)) := by
  have hbounded := hm.bounded hsize hstack
  obtain rfl : m.live = stack := Option.some.inj (hbounded.stack?_eq_live.symm.trans hlive)
  rw [← hbounded.toInt_sp]
  refine ⟨rfl, fun hsuits => ?_, fun hsuits => ?_⟩
  · have hthrough := hbounded.runsThrough_of_eachAt hsize hstack hrun hmoves hpc hcoded hsuits
    have hafter := hbounded.afterSteps hsize hstack block.length
    refine ⟨hthrough, fun hzero => ?_, fun habove => ?_⟩
    · have hsp := hthrough.sp
      rw [hzero, Int.add_zero] at hsp
      exact Int64.toInt_inj.1 hsp
    · have hkept := hthrough.kept m.live.length (Nat.le_refl _) habove
      rw [List.take_length] at hkept
      obtain ⟨above, heq⟩ := hkept
      refine ⟨above, by rw [heq]; exact hafter.stack?_eq_live, fun hzero => ?_⟩
      have hsp := hthrough.sp
      rw [hzero, Int.add_zero, hafter.toInt_sp, hbounded.toInt_sp, ← heq,
        List.length_append] at hsp
      exact List.length_eq_zero_iff.1 (by omega)
  · obtain ⟨before, i, after, rfl, hbefore, hi⟩ := Instruction.exists_first_of_not_eachAt hsuits
    obtain ⟨hmovesBefore, hmovesRest⟩ := List.forall_mem_append.1 hmoves
    obtain ⟨hcodedBefore, hcodedRest⟩ := hcoded.of_append
    have hthrough :=
      hbounded.runsThrough_of_eachAt hsize hstack hrun hmovesBefore hpc hcodedBefore hbefore
    -- Behind what runs through, the machine is at the byte where the first unsuited move begins.
    have hfaulting := hbounded.afterSteps hsize hstack before.length
    have hnext := hthrough.pc
    rw [hpc, ← Int.natCast_add] at hnext
    have hexecutes := hfaulting.executes_of_coded hsize hthrough.running hnext hcodedRest
    have hmove := (List.forall_mem_cons.1 hmovesRest).1
    have hstep := hfaulting.step_of_not_halt hsize hstack hexecutes
      (Instruction.exitCode?_of_isMove hmove)
    have hfault := hfaulting.fault_of_not_suits hsize hstack hexecutes hmove
      (by rwa [hthrough.sp])
    rw [hthrough.sp] at hfault
    exact ⟨before, i, after, rfl, hbefore, hi, hthrough, hexecutes, hstep, hfault⟩

/-- A string is put on top of a number and copied into a register. The stack is the same
    again, unless there is no room for the copy. -/
theorem straight_line_keeps_discipline_of_copy :
    let block := [Instruction.pushString [97], .dup, .popRegister (.general 0), .pop]
    let program := (.pushInt 5 :: block).flatMap (·.encode)
    let m (capacity : Nat) := (ofProgram program { stackSize := capacity }).after .step
    (m 3).RunsThrough block ∧ ((m 3).afterSteps 4).stack? = some [.int 5] ∧
      ((m 2).afterSteps 2).fault = some .stackOverflow := by
  intro block program m
  have hm (capacity : Nat) : Reachable program { stackSize := capacity } (m capacity) :=
    .after .step .fresh
  have hmoves : ∀ i ∈ block, i.isMove := by decide
  have hforms : ∀ i ∈ block, List.Forall₂ Operand.OfKind i.opcode.layout.kinds i.operands := by
    simp only [block, List.forall_mem_cons, List.not_mem_nil, false_imp_iff, implies_true, and_true]
    exact ⟨.cons (.string (by decide)) .nil, .nil, .cons (.register _) .nil, .nil⟩
  have hcoded : Coded program 9 block := coded_of_isPrefix hforms (by decide)
  have hroom : (m 3).stack? = some [.int 5] := by decide +kernel
  have hfull : (m 2).stack? = some [.int 5] := by decide +kernel
  obtain ⟨-, hruns, -⟩ := straight_line_keeps_discipline (by decide +kernel) (by decide) (hm 3)
    ⟨by decide +kernel, by decide +kernel, by decide +kernel⟩ hmoves (by decide +kernel) hcoded
    hroom
  obtain ⟨-, -, hfaults⟩ := straight_line_keeps_discipline (by decide +kernel) (by decide) (hm 2)
    ⟨by decide +kernel, by decide +kernel, by decide +kernel⟩ hmoves (by decide +kernel) hcoded
    hfull
  obtain ⟨hthrough, -, hkept⟩ := hruns (by decide)
  obtain ⟨above, hstack, hnone⟩ := hkept (by decide)
  obtain rfl := hnone (by decide)
  refine ⟨hthrough, hstack, ?_⟩
  obtain ⟨before, i, after, hsplit, hbefore, hi, -, -, -, hfault⟩ := hfaults (by decide)
  -- The second instruction is the first one that finds no room.
  simp only [block] at hsplit
  obtain - | ⟨first, - | ⟨second, rest⟩⟩ := before
  · cases hsplit
    exact absurd (by decide) hi
  · cases hsplit
    exact hfault
  · simp only [List.cons_append, List.cons.injEq] at hsplit
    obtain ⟨rfl, rfl, -⟩ := hsplit
    exact absurd hbefore.2.1 (by decide)

end Machine

end StackMachine
