-- SUMMARY: Where the values in the registers and slots of a machine come from.
import StackMachine.Proofs.Continuations
import StackMachine.Proofs.LiveStack
import StackMachine.Proofs.Spelling

/-!
# Provenance

An instruction writes into registers and slots what it finds in others, an
integer, a string operand of its own, or two byte strings one after the other.
So a condition on values that all integers meet is kept by every instruction
whose string operands meet it, `CONCAT` apart, for which the string that it makes
has to meet it too. This concerns all slots: writing the stack pointer brings
those above it back to life.
-/

namespace StackMachine

/-- Slots that are exchanged hold no other values than before. -/
theorem Memory.exists_slot?_of_swap {m : Memory} {i j k : Nat} {v : Value}
    (h : (m.swap i j).slot? k = some v) : ∃ k', m.slot? k' = some v := by
  unfold slot? swap at h
  rw [Array.swapIfInBounds_def] at h
  split at h
  · split at h
    · rw [Array.getElem?_swap] at h
      split at h
      · exact ⟨i, (Array.getElem?_eq_getElem _).trans h⟩
      · split at h
        · exact ⟨j, (Array.getElem?_eq_getElem _).trans h⟩
        · exact ⟨k, h⟩
    · exact ⟨k, h⟩
  · exact ⟨k, h⟩

namespace Machine

variable {V : Value → Prop} {m : Machine}

/-- The operands of what is decoded are of the kinds that its opcode asks for. -/
theorem Ready.ofKind_of_decode_eq_ok {program : Bytes} {capacity : Nat} {i : Instruction}
    {pc : Int64} (hsize : program.length < 2 ^ 63) (hm : m.Ready program capacity)
    (hi : Fetch.decode m.memory m.registers.pc = .ok i pc) :
    List.Forall₂ Operand.OfKind i.opcode.layout.kinds i.operands := by
  obtain ⟨hread, -⟩ := hm.read?_of_decode_eq_ok hsize hi
  exact (Entry.spelled_of_read? hread).1

/-- All values in the general registers and in the slots, live or not, meet the
    condition. -/
structure HoldsOnly (V : Value → Prop) (m : Machine) : Prop where
  general : ∀ i, V (m.registers.general.get i)
  slot : ∀ k v, m.memory.slot? k = some v → V v

theorem ignoresPc_holdsOnly (V : Value → Prop) : IgnoresPc (HoldsOnly V) := by
  intro m m' h hmemory hregisters
  constructor
  · rw [hregisters]
    exact h.general
  · rw [hmemory]
    exact h.slot

theorem holdsOnly_ofProgram (hzero : V .zero) (program : Bytes) (config : Config) :
    (ofProgram program config).HoldsOnly V := by
  constructor
  · intro i
    have hfresh := RegisterFile.get_fresh (.general i)
    rw [RegisterFile.get] at hfresh
    change V (RegisterFile.fresh.general.get i)
    rwa [hfresh]
  · intro k v hv
    simp only [ofProgram, Memory.ofProgram, Memory.slot?, Array.getElem?_replicate] at hv
    split at hv
    · cases hv
      exact hzero
    · cases hv

namespace HoldsOnly

variable (h : m.HoldsOnly V)
include h

theorem get (hint : ∀ i, V (.int i)) (r : Register) : V (m.registers.get r) := by
  cases r with
  | general i => exact h.general i
  | pc | sp | fp | rt => exact hint _

/-- A slot takes a value that meets the condition. -/
theorem put {v : Value} (hv : V v) (k k' : Nat) (w : Value)
    (hw : (m.memory.put k v).slot? k' = some w) : V w := by
  rw [Memory.slot?_put] at hw
  split at hw
  · cases hw
    exact hv
  · exact h.slot k' w hw

theorem of_mem_live {v : Value} (hv : v ∈ m.live) : V v := by
  obtain ⟨k, hk⟩ := List.mem_iff_getElem?.1 (List.mem_of_mem_take hv)
  exact h.slot k v (by rwa [Memory.slot?, ← Array.getElem?_toList])

theorem set? {r : Register} {v : Value} {registers : RegisterFile} (hv : V v)
    (hset : m.registers.set? r v = some registers) (i : Fin 10) : V (registers.general.get i) := by
  by_cases hr : r = .general i
  · subst hr
    have hget : registers.general.get i = v := RegisterFile.get_set? hset
    rwa [hget]
  · have hget : registers.general.get i = m.registers.general.get i :=
      RegisterFile.get_set?_of_ne (s := .general i) hset hr
    rw [hget]
    exact h.general i

end HoldsOnly

end Machine

/-! ## Elementary actions -/

namespace Action

open Machine (HoldsOnly)

variable {V : Value → Prop}

/-- The action writes no values but those that meet the condition. -/
abbrev KeepsValues (V : Value → Prop) (x : Action α) : Prop :=
  Keeps (HoldsOnly V) (fun _ => True) x

theorem keepsValues_top_bind {f : Value → Action β} (op : Opcode)
    (hf : ∀ v, V v → KeepsValues V (f v)) : KeepsValues V (top op >>= f) := by
  intro m hm
  rw [wp_bind, wp_top]
  refine ⟨fun _ => ⟨trivial, hm⟩, fun _ => ?_⟩
  cases hv : m.memory.slot? (m.height - 1) with
  | none => exact ⟨trivial, hm⟩
  | some v => exact hf v (hm.slot _ v hv) m hm

theorem keepsValues_pop_bind {f : Value → Action β} (hzero : V .zero) (op : Opcode)
    (hf : ∀ v, V v → KeepsValues V (f v)) : KeepsValues V (pop op >>= f) := by
  intro m hm
  rw [wp_bind, wp_pop]
  refine ⟨fun _ => ⟨trivial, hm⟩, fun _ => ?_⟩
  cases hv : m.memory.slot? (m.height - 1) with
  | none => exact ⟨trivial, hm⟩
  | some v => exact hf v (hm.slot _ v hv) _ ⟨hm.general, hm.put hzero _⟩

theorem keepsValues_pop (hzero : V .zero) (op : Opcode) : KeepsValues V (pop op) := by
  rw [← bind_pure (pop op)]
  exact keepsValues_pop_bind hzero op fun v _ => Keeps.pure v

theorem keepsValues_register_bind {f : Value → Action β} (hint : ∀ i, V (.int i)) (r : Register)
    (hf : ∀ v, V v → KeepsValues V (f v)) : KeepsValues V (register r >>= f) :=
  fun m hm => hf _ (hm.get hint r) m hm

theorem keepsValues_push {v : Value} (hv : V v) : KeepsValues V (push v) := by
  intro m hm
  rw [wp_push]
  exact ⟨fun _ => ⟨hm.general, hm.put hv _⟩, fun _ => ⟨trivial, hm⟩⟩

theorem keepsValues_swapTop : KeepsValues V swapTop := by
  intro m hm
  rw [wp_swapTop]
  refine ⟨fun _ => ⟨trivial, hm⟩, fun _ _ => ⟨hm.general, ?_⟩, fun _ _ => ⟨trivial, hm⟩⟩
  intro k v hv
  obtain ⟨k', hv⟩ := Memory.exists_slot?_of_swap hv
  exact hm.slot k' v hv

theorem keepsValues_jump (target : Int64) : KeepsValues V (jump target) := by
  intro m hm
  rw [wp_jump]
  exact ⟨fun _ => ⟨hm.general, hm.slot⟩, fun _ => ⟨trivial, hm⟩⟩

theorem keepsValues_setRegister (r : Register) {v : Value} (hv : V v) :
    KeepsValues V (setRegister r v) := by
  intro m hm
  by_cases hpc : r = .pc
  · subst hpc
    cases v with
    | int target => exact keepsValues_jump target m hm
    | bytes b => exact ⟨trivial, hm⟩
  by_cases hsp : r = .sp
  · subst hsp
    cases v with
    | int sp =>
      rw [wp_setRegister_sp_int]
      exact ⟨fun _ => ⟨trivial, hm⟩, fun _ => ⟨hm.general, hm.slot⟩⟩
    | bytes b => exact ⟨trivial, hm⟩
  rw [wp_setRegister_of_ne hpc hsp]
  cases hset : m.registers.set? r v with
  | none => exact ⟨trivial, hm⟩
  | some registers => exact ⟨hm.set? hv hset, hm.slot⟩

theorem keepsValues_printLine (line : Text) : KeepsValues V (printLine line) := by
  intro m hm
  rw [wp_printLine]
  exact ⟨fun _ => ⟨hm.general, hm.slot⟩, fun _ => ⟨trivial, hm.general, hm.slot⟩⟩

theorem keepsValues_integer (op : Opcode) (v : Value) : KeepsValues V (integer op v) := by
  cases v with
  | int i => exact Keeps.pure i
  | bytes b => exact Keeps.fail trivial

theorem keepsValues_arithmetic (hint : ∀ i, V (.int i)) (op : Arithmetic) :
    KeepsValues V (arithmetic op) := by
  refine keepsValues_pop_bind (hint 0) _ fun right _ =>
    keepsValues_pop_bind (hint 0) _ fun left _ => ?_
  split
  · split
    · exact keepsValues_push (hint _)
    · exact Keeps.fail trivial
  · exact Keeps.fail trivial

theorem keepsValues_call (target : Int64) : KeepsValues V (call target) := by
  intro m hm
  rw [call, wp_bind, wp_checkTarget]
  exact ⟨fun _ => ⟨hm.general, hm.slot⟩, fun _ => ⟨trivial, hm⟩⟩

theorem keepsValues_param (r : Register) (offset : Int64) : KeepsValues V (param r offset) := by
  refine Keeps.get_bind fun m hm => ?_
  dsimp only
  split
  · exact ⟨trivial, hm⟩
  · split
    · exact ⟨trivial, hm⟩
    · rename_i v hv
      exact keepsValues_setRegister r (hm.slot _ v hv) m hm

theorem keepsValues_dump : KeepsValues V dump := by
  refine Keeps.get_bind fun m hm => ?_
  split
  · exact ⟨trivial, hm⟩
  · exact keepsValues_printLine _ m hm

/-! ## Instructions -/

/-- One case for each instruction but `CONCAT`. -/
theorem keepsValues_execute {i : Instruction} (hint : ∀ i, V (.int i))
    (hstring : ∀ b, .string b ∈ i.operands → V (.bytes b)) (hconcat : i ≠ .concat) :
    KeepsValues V (execute i) := by
  -- All but `HALT` do something and then go on.
  have goOn {x : Action Unit} (hx : KeepsValues V x) :
      KeepsValues V (do x; return (none : Option UInt8)) :=
    Keeps.bind hx fun _ => Keeps.pure none
  cases i with
  | halt code => exact Keeps.pure _
  | pushInt i => exact goOn (keepsValues_push (hint i))
  | pushString b => exact goOn (keepsValues_push (hstring b (by simp [Instruction.operands])))
  | pushRegister r =>
    exact keepsValues_register_bind hint r fun v hv => goOn (keepsValues_push hv)
  | pop => exact goOn (keepsValues_pop (hint 0) _).discard
  | popRegister r =>
    exact keepsValues_pop_bind (hint 0) _ fun v hv => goOn (keepsValues_setRegister r hv)
  | store r => exact keepsValues_top_bind _ fun v hv => goOn (keepsValues_setRegister r hv)
  | swap => exact goOn keepsValues_swapTop
  | dup => exact keepsValues_top_bind _ fun v hv => goOn (keepsValues_push hv)
  | arithmetic op => exact goOn (keepsValues_arithmetic hint op)
  | setInt r i => exact goOn (keepsValues_setRegister r (hint i))
  | setString r b =>
    exact goOn (keepsValues_setRegister r (hstring b (by simp [Instruction.operands])))
  | jump target => exact goOn (keepsValues_jump target)
  | jumpTop c target =>
    refine goOn (keepsValues_top_bind _ fun v _ => Keeps.bind (keepsValues_integer _ v) fun i => ?_)
    exact Keeps.ite (fun _ => keepsValues_jump target) fun _ => Keeps.pure _
  | jumpRegister r =>
    exact Keeps.bind (Keeps.register r) fun v => Keeps.bind (keepsValues_integer _ v)
      fun target => goOn (keepsValues_jump target)
  | print => exact keepsValues_top_bind _ fun v _ => goOn (keepsValues_printLine _)
  | printRegister r => exact Keeps.bind (Keeps.register r) fun v => goOn (keepsValues_printLine _)
  | dump => exact goOn keepsValues_dump
  | dumpRegisters => exact Keeps.get_bind fun m hm => goOn (keepsValues_printLine _) m hm
  | ret => exact Keeps.get_bind fun m hm => goOn (keepsValues_jump _) m hm
  | call target => exact goOn (keepsValues_call target)
  | concat => exact absurd rfl hconcat
  | param r offset => exact goOn (keepsValues_param r offset)
  | compare left right =>
    refine Keeps.bind (Keeps.register left) fun v => Keeps.bind (Keeps.register right) fun w => ?_
    split
    · exact goOn (Keeps.modify fun m hm => ⟨hm.general, hm.slot⟩)
    · exact goOn (Keeps.fail trivial)
  | jumpFlag c target =>
    refine Keeps.get_bind fun m hm => ?_
    split
    · exact goOn (keepsValues_jump target) m hm
    · exact hm
  | step => exact goOn (Keeps.modify fun m hm => ⟨hm.general, hm.slot⟩)

/-- `CONCAT` writes one value that may be new. -/
theorem wp_concat_values {program : Bytes} {capacity : Nat} {m : Machine}
    (hm : m.Ready program capacity) (hvalues : m.HoldsOnly V) (hzero : V .zero)
    (hjoin : ∀ below left right, m.live = below ++ [Value.bytes left, .bytes right] →
      V (.bytes (left ++ right))) :
    wp concat (fun _ m' => m'.HoldsOnly V) (fun _ m' => m'.HoldsOnly V) m := by
  have hpopped {m : Machine} (h : m.HoldsOnly V) : m.popped.HoldsOnly V :=
    ⟨h.general, h.put hzero _⟩
  unfold concat
  rw [wp_bind, wp_pop_live hm]
  obtain hlive | ⟨rest, right, hlive⟩ := List.eq_nil_or_concat' m.live
  · rw [hlive]
    exact hvalues
  · obtain ⟨hready, hrest⟩ := hm.popped (by simp [hlive])
    rw [hlive, List.dropLast_concat] at hrest
    rw [hlive, List.getLast?_concat]
    dsimp only
    rw [wp_bind, wp_pop_live hready]
    obtain rfl | ⟨below, left, rfl⟩ := List.eq_nil_or_concat' rest
    · rw [hrest]
      exact hpopped hvalues
    · rw [hrest, List.getLast?_concat]
      dsimp only
      split
      · rename_i left right
        have hv := hjoin below left right (by simp [hlive])
        exact (keepsValues_push hv _ (hpopped (hpopped hvalues))).mono (fun _ _ h => h)
          fun _ _ h => h.2
      · exact hpopped (hpopped hvalues)

theorem wp_execute_values {program : Bytes} {capacity : Nat} {m : Machine} {i : Instruction}
    (hm : m.Ready program capacity) (hvalues : m.HoldsOnly V) (hint : ∀ i, V (.int i))
    (hstring : ∀ b, .string b ∈ i.operands → V (.bytes b))
    (hjoin : i = .concat → ∀ below left right, m.live = below ++ [Value.bytes left, .bytes right] →
      V (.bytes (left ++ right))) :
    wp (execute i) (fun _ m' => m'.HoldsOnly V) (fun _ m' => m'.HoldsOnly V) m := by
  by_cases hi : i = .concat
  · subst hi
    change wp (concat >>= fun _ => pure none) _ _ m
    rw [wp_bind]
    exact wp_concat_values hm hvalues (hint 0) (hjoin rfl)
  · exact (keepsValues_execute hint hstring hi m hvalues).mono (fun _ _ h => h) fun _ _ h => h.2

end Action

end StackMachine
