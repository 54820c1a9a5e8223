-- SUMMARY: An instruction leaves all of the stack alone but for the values on top that it pops or exchanges.
import StackMachine.Proofs.Lockstep

/-!
# Frames

An instruction takes operands from the top of the stack and puts results there.
The values below its operands stay where they are, so a step keeps every part of
the stack that its instruction does not reach down to. Only writing the stack
pointer can remove values without popping them.
-/

namespace StackMachine

/-- The number of values on top of the stack that the instruction pops or
    exchanges. -/
def Instruction.handled : Instruction → Nat
  | arithmetic _ | concat | swap => 2
  | pop | popRegister _ => 1
  | _ => 0

/-! ## List machines -/

namespace ListMachine

variable {s : ListMachine} {kept : List Value}

@[simp] theorem stack_jump (target : Int64) : (s.jump target).stack = s.stack := by
  unfold jump
  split <;> rfl

@[simp] theorem stack_write (r : Register) (v : Value) : (s.write r v).stack = s.stack := by
  unfold write
  split
  · rfl
  · rfl
  · exact stack_jump _
  · rfl
  · rfl
  · rfl

@[simp] theorem stack_print (line : Text) : (s.print line).stack = s.stack := by
  unfold print
  dsimp only
  split <;> rfl

@[simp] theorem stack_call (target : Int64) : (s.call target).stack = s.stack := by
  unfold call
  split <;> rfl

@[simp] theorem stack_compare (left right : Register) :
    (s.compare left right).stack = s.stack := by
  unfold compare
  split <;> rfl

@[simp] theorem stack_param (r : Register) (offset : Int64) :
    (s.param r offset).stack = s.stack := by
  unfold param
  split
  · rfl
  · exact stack_write _ _

theorem isPrefix_push (v : Value) : s.stack <+: (s.push v).stack := by
  unfold push
  split
  · exact List.prefix_append _ _
  · exact List.prefix_rfl

/-- What goes on with the last value keeps a part of the stack if that keeps it. -/
theorem isPrefix_withLast {op : Opcode} {go : Value → ListMachine} (h : kept <+: s.stack)
    (hgo : ∀ v, kept <+: (go v).stack) : kept <+: (s.withLast op go).stack := by
  unfold withLast
  split
  · exact h
  · exact hgo _

theorem isPrefix_withInteger {op : Opcode} {v : Value} {go : Int64 → ListMachine}
    (h : kept <+: s.stack) (hgo : ∀ i, kept <+: (go i).stack) :
    kept <+: (s.withInteger op v go).stack := by
  cases v with
  | int i => exact hgo i
  | bytes b => exact h

/-- The two values that an instruction handles lie on the rest of the stack. -/
theorem take_of_reverse {upper lower : Value} {below : List Value}
    (h : s.stack.reverse = upper :: lower :: below) :
    s.stack.take (s.stack.length - 2) = below.reverse := by
  have hstack : s.stack = below.reverse ++ [lower, upper] := by
    simpa using congrArg List.reverse h
  simp [hstack]

theorem isPrefix_swap : s.stack.take (s.stack.length - 2) <+: s.swap.stack := by
  unfold swap
  split
  · rename_i h
    rw [take_of_reverse h]
    exact List.prefix_append _ _
  · exact List.take_prefix _ _

theorem isPrefix_combine (op : Opcode) (result : Value → Value → Except Fault Value) :
    s.stack.take (s.stack.length - 2) <+: (s.combine op result).stack := by
  unfold combine
  split
  · rename_i h
    rw [take_of_reverse h]
    split
    · exact List.prefix_append _ _
    · exact List.prefix_rfl
  · rename_i h
    -- With fewer than two values there is nothing below them.
    have hshort : s.stack.length - 2 = 0 := by
      rw [← List.length_reverse]
      match hreverse : s.stack.reverse with
      | [] | [v] => rfl
      | upper :: lower :: below => exact absurd hreverse (h upper lower below)
    rw [hshort]
    exact List.nil_prefix

/-- One case for each instruction. -/
theorem isPrefix_execute (i : Instruction) :
    s.stack.take (s.stack.length - i.handled) <+: (s.execute i).stack := by
  have hkept : s.stack.take (s.stack.length - i.handled) <+: s.stack := List.take_prefix _ _
  have hjump (c : Bool) (target : Int64) :
      s.stack.take (s.stack.length - i.handled) <+: (if c then s.jump target else s).stack := by
    cases c with
    | true => simpa using hkept
    | false => exact hkept
  cases i with
  | halt code => exact hkept
  | pushInt i => exact hkept.trans (isPrefix_push _)
  | pushString b => exact hkept.trans (isPrefix_push _)
  | pushRegister r => exact hkept.trans (isPrefix_push _)
  | pop =>
    refine isPrefix_withLast hkept fun v => ?_
    rw [pop, List.dropLast_eq_take]
    exact List.prefix_rfl
  | popRegister r =>
    refine isPrefix_withLast hkept fun v => ?_
    rw [stack_write, pop, List.dropLast_eq_take]
    exact List.prefix_rfl
  | store r => exact isPrefix_withLast hkept fun v => by rwa [stack_write]
  | swap => exact isPrefix_swap
  | dup => exact isPrefix_withLast hkept fun v => hkept.trans (isPrefix_push v)
  | arithmetic op => exact isPrefix_combine _ _
  | concat => exact isPrefix_combine _ _
  | jumpTop c target =>
    exact isPrefix_withLast hkept fun v => isPrefix_withInteger hkept fun i => hjump _ target
  | jumpRegister r => exact isPrefix_withInteger hkept fun target => by rwa [stack_jump]
  | print => exact isPrefix_withLast hkept fun v => by rwa [stack_print]
  | jumpFlag c target => exact hjump _ target
  | setInt | setString | jump | printRegister | dump | dumpRegisters | ret | call | param
    | compare | step => simpa [execute] using hkept

end ListMachine

/-! ## Machines -/

namespace Machine

variable {program : Bytes} {capacity : Nat} {m : Machine} {i : Instruction}

/-- The slot of the index is one of the live ones that the instruction pops or
    exchanges. -/
def Handles (m : Machine) (i : Instruction) (index : Nat) : Prop :=
  index < m.height ∧ m.height ≤ index + i.handled

theorem not_handles (h : i.handled = 0) (index : Nat) : ¬ m.Handles i index := by
  rintro ⟨hlow, hhigh⟩
  omega

section Steps

variable (hsize : program.length < 2 ^ 63) (hcap : capacity < 2 ^ 63)
include hsize hcap

/-- A step keeps the live values below an index if its instruction handles none of
    their slots and does not write the stack pointer. -/
theorem Bounded.isPrefix_live_step {base : Nat} (hm : m.Bounded program capacity)
    (hbase : base ≤ m.live.length) (hspares : m.SparesSp)
    (hbelow : ∀ i, m.Executes i → ∀ index < base, ¬ m.Handles i index) :
    m.live.take base <+: (m.after .step).live := by
  refine hm.keeps_step hsize hcap (I := fun n => m.live.take base <+: n.live) ?_
    (List.take_prefix _ _) ?_
  · intro n n' h hmemory hregisters
    have hlive : n'.live = n.live := by rw [live, live, height, height, hmemory, hregisters]
    rwa [hlive]
  · intro i pc journal hi hdecoded _
    have hle : base ≤ m.live.length - i.handled := by
      cases base with
      | zero => exact Nat.zero_le _
      | succ last =>
        have hlast := hbelow i hi last (Nat.lt_succ_self last)
        rw [Handles, ← hm.length_live] at hlast
        omega
    have hkept : m.live.take base <+: ((m.listed.goTo pc).execute i).stack :=
      (List.take_prefix_take_left hle).trans
        (ListMachine.isPrefix_execute (s := m.listed.goTo pc) i)
    have hlists := (hm.ready_of_executes hi).lists_of_decode hsize hcap hdecoded
      (hspares i hi) journal
    refine hlists.mono (fun _ m' hm' => ?_) ?_
    · rw [← hm'] at hkept
      exact hkept
    · rintro _ m' ⟨f, -, hm'⟩
      rw [← hm'] at hkept
      exact hkept

end Steps

end Machine

end StackMachine
