-- SUMMARY: How long the byte strings in a machine can become.
import StackMachine.Proofs.Lockstep
import StackMachine.Proofs.Provenance

/-!
# String lengths

A string operand has at most `maxStringLength` bytes, and no instruction but
`CONCAT` makes a string longer. `CONCAT` does not look at the length of what it
makes: the strings in a machine are as short as operands for just as long as no
two of them are joined to a longer one. A loop that joins a string to itself
exceeds every bound.
-/

namespace StackMachine

/-- A byte string is no longer than an operand can be. -/
def Value.Short : Value → Prop
  | .int _ => True
  | .bytes b => b.length ≤ maxStringLength

namespace Machine

variable {program : Bytes} {config : Config} {capacity : Nat} {m : Machine}
  {i : Instruction} {s : ListMachine}

/-- All byte strings in general registers and in slots, live or not, are short. -/
abbrev Short (m : Machine) : Prop :=
  m.HoldsOnly Value.Short

/-- If the instruction joins the two topmost values, it makes a short string. -/
def JoinsShort (m : Machine) (i : Instruction) : Prop :=
  i = .concat → ∀ (below : List Value) (left right : Bytes),
    m.stack? = some (below ++ [Value.bytes left, .bytes right]) →
      (left ++ right).length ≤ maxStringLength

/-- The string operands of what is decoded are short. -/
theorem Ready.short_of_decode_eq_ok {pc : Int64} (hsize : program.length < 2 ^ 63)
    (hm : m.Ready program capacity) (hi : Fetch.decode m.memory m.registers.pc = .ok i pc)
    {b : Bytes} (hb : .string b ∈ i.operands) : b.length ≤ maxStringLength := by
  have hform := hm.ofKind_of_decode_eq_ok hsize hi
  obtain ⟨kind, -, hkind⟩ := exists_of_forall₂ hform.flip hb
  cases hkind with
  | string hlength => exact hlength

section Steps

variable (hsize : program.length < 2 ^ 63) (hcap : capacity < 2 ^ 63)
include hsize hcap

/-- A step makes no string longer than an operand unless it joins two. -/
theorem Bounded.short_step (hm : m.Bounded program capacity) (hshort : m.Short)
    (hjoins : ∀ i, m.Executes i → m.JoinsShort i) : (m.after .step).Short := by
  refine hm.keeps_step hsize hcap (ignoresPc_holdsOnly _) hshort ?_
  intro i pc journal hi hdecoded hready
  have hvalues : (m.goTo pc journal).Short := ⟨hshort.general, hshort.slot⟩
  refine Action.wp_execute_values hready hvalues (fun _ => trivial) ?_ ?_
  · intro b hb
    exact (hm.ready_of_executes hi).short_of_decode_eq_ok hsize hdecoded hb
  · intro hconcat below left right hlive
    exact hjoins i hi hconcat below left right (hm.stack?_eq_live.trans (congrArg some hlive))

/-- A step that joins two strings leaves the result on the stack. -/
theorem Bounded.live_step_of_concat {below : List Value} {left right : Bytes}
    (hm : m.Bounded program capacity) (hi : m.Executes .concat)
    (hlive : m.live = below ++ [Value.bytes left, .bytes right]) :
    (m.after .step).live = below ++ [Value.bytes (left ++ right)] := by
  have hready := hm.ready_of_executes hi
  obtain ⟨-, -, hgo, pc, hdecoded⟩ := hi
  have hlisted := hready.listed_step hsize hcap hgo hdecoded nofun rfl
  have hcombine : (m.listed.goTo pc).combine .concat ListMachine.join = _ :=
    ListMachine.combine_of_two hlive
  rw [ListMachine.execute, hcombine] at hlisted
  exact congrArg ListMachine.stack hlisted

theorem Bounded.joinsShort_of_short_step (hm : m.Bounded program capacity)
    (hshort : (m.after .step).Short) (hi : m.Executes i) : m.JoinsShort i := by
  rintro rfl below left right hstack
  have hlive := Option.some.inj (hm.stack?_eq_live.symm.trans hstack)
  have hafter := hm.live_step_of_concat hsize hcap hi hlive
  have hmem : .bytes (left ++ right) ∈ (m.after .step).live := by simp [hafter]
  exact hshort.of_mem_live hmem

end Steps

section Runs

variable (hsize : program.length < 2 ^ 63) (hstack : config.stackSize < 2 ^ 63)
include hsize hstack

theorem Continues.short (h : Continues JoinsShort (ofProgram program config) m) : m.Short := by
  induction h with
  | refl => exact holdsOnly_ofProgram trivial program config
  | step h hjoins ih =>
    exact ((h.reachable .fresh).bounded hsize hstack).short_step hsize hstack ih hjoins
  | terminate _ _ ih => exact ⟨ih.general, ih.slot⟩
  | output _ _ ih => exact ⟨ih.general, ih.slot⟩

/-- Before the first string that is too long all strings are short, and a step
    makes the first one exactly if it executes a `CONCAT` that joins two strings to
    one that is too long. -/
theorem short_iff_joinsShort (h : Continues JoinsShort (ofProgram program config) m) :
    m.Short ∧ ((m.after .step).Short ↔ ∀ i, m.Executes i → m.JoinsShort i) := by
  have hbounded := (h.reachable .fresh).bounded hsize hstack
  have hshort := h.short hsize hstack
  refine ⟨hshort, fun hafter i hi => ?_, hbounded.short_step hsize hstack hshort⟩
  exact hbounded.joinsShort_of_short_step hsize hstack hafter hi

end Runs

/-- The step that makes a string of two bytes. -/
theorem short_iff_joinsShort_two :
    let program := [Instruction.pushString [120], .dup, .concat].flatMap (·.encode)
    let m := ((ofProgram program { stackSize := 2 }).after .step).after .step
    m.Executes .concat ∧ m.Short ∧ (m.after .step).Short := by
  intro program m
  have hpush : (ofProgram program { stackSize := 2 }).Executes (.pushString [120]) := by decide
  have hdup : ((ofProgram program { stackSize := 2 }).after .step).Executes .dup := by decide
  have hconcat : m.Executes .concat := by decide
  have hstack : m.stack? = some [.bytes [120], .bytes [120]] := by decide
  have hm : Continues JoinsShort (ofProgram program { stackSize := 2 }) m :=
    .step_of_executes (.step_of_executes .refl hpush nofun) hdup nofun
  obtain ⟨hshort, hiff⟩ := short_iff_joinsShort (by decide) (by decide) hm
  refine ⟨hconcat, hshort, hiff.2 fun i _ _ below left right htop => ?_⟩
  have hlive := Option.some.inj (hstack.symm.trans htop)
  obtain rfl : below = [] := by simpa using congrArg List.length hlive
  cases hlive
  decide

/-! ## A loop that exceeds every bound -/

/-- A machine that runs the program can get into a state that lists so. -/
def Listable (program : Bytes) (config : Config) (s : ListMachine) : Prop :=
  ∃ m, Reachable program config m ∧ m.listed = s

theorem Listable.step {pc : Int64} (hsize : program.length < 2 ^ 63)
    (hstack : config.stackSize < 2 ^ 63) (h : Listable program config s)
    (hgo : s.fault = none ∧ s.exitCode = none ∧ s.terminating = false)
    (hi : Fetch.decode (Memory.ofProgram s.program 0) s.pc = .ok i pc)
    (hsp : i.destination? ≠ some .sp) (hcode : i.exitCode? = none) :
    Listable program config ((s.goTo pc).execute i) := by
  obtain ⟨m, hm, rfl⟩ := h
  have hready : m.Ready program config.stackSize :=
    ⟨(hm.bounded hsize hstack).toInBounds, hgo.1, hgo.2.1⟩
  rw [decode_listed] at hi
  exact ⟨_, .after .step hm, hready.listed_step hsize hstack hgo.2.2 hi hsp hcode⟩

/-- Push a string, and then join it to itself again and again. -/
def doubling : Bytes :=
  [Instruction.pushString [120], .dup, .concat, .jump 4].flatMap (·.encode)

/-- The list machine at the start of the loop, with a string on its stack. -/
def doublingFrom (b : Bytes) : ListMachine :=
  { ListMachine.ofProgram doubling {} with stack := [.bytes b], pc := 4 }

theorem listable_doublingFrom_one : Listable doubling {} (doublingFrom [120]) := by
  have hfresh : Listable doubling {} (.ofProgram doubling {}) :=
    ⟨_, .fresh, listed_ofProgram doubling {}⟩
  have hi : Fetch.decode (Memory.ofProgram doubling 0) 0 = .ok (.pushString [120]) 4 := rfl
  exact hfresh.step (by decide) (by decide) ⟨rfl, rfl, rfl⟩ hi nofun rfl

/-- Once around the loop. -/
theorem Listable.doublingFrom_append {b : Bytes} (h : Listable doubling {} (doublingFrom b)) :
    Listable doubling {} (doublingFrom (b ++ b)) := by
  have hdup : Fetch.decode (Memory.ofProgram doubling 0) 4 = .ok .dup 5 := rfl
  have hconcat : Fetch.decode (Memory.ofProgram doubling 0) 5 = .ok .concat 6 := rfl
  have hjump : Fetch.decode (Memory.ofProgram doubling 0) 6 = .ok (.jump 4) 15 := rfl
  have htwo : Listable doubling {}
      { doublingFrom b with stack := [.bytes b, .bytes b], pc := 5 } :=
    h.step (by decide) (by decide) ⟨rfl, rfl, rfl⟩ hdup nofun rfl
  have hjoined : Listable doubling {} { doublingFrom (b ++ b) with pc := 6 } :=
    htwo.step (by decide) (by decide) ⟨rfl, rfl, rfl⟩ hconcat nofun rfl
  exact hjoined.step (by decide) (by decide) ⟨rfl, rfl, rfl⟩ hjump nofun rfl

theorem listable_doublingFrom (n : Nat) :
    Listable doubling {} (doublingFrom (List.replicate (2 ^ n) 120)) := by
  induction n with
  | zero => exact listable_doublingFrom_one
  | succ n ih =>
    have happend := ih.doublingFrom_append
    rwa [List.replicate_append_replicate, ← Nat.two_mul, ← Nat.pow_succ'] at happend

/-- The string is as long as one wishes. -/
theorem exists_stack_doubled (n : Nat) :
    ∃ m, Reachable doubling {} m ∧ m.stack? = some [.bytes (List.replicate (2 ^ n) 120)] := by
  obtain ⟨m, hm, hlisted⟩ := listable_doublingFrom n
  have hlive : m.live = [.bytes (List.replicate (2 ^ n) 120)] := congrArg ListMachine.stack hlisted
  have hbounded := hm.bounded (by decide) (by decide)
  exact ⟨m, hm, hbounded.stack?_eq_live.trans (congrArg some hlive)⟩

/-- After fifteen rounds the string has one byte too many. -/
theorem exists_not_short :
    ∃ m, Reachable doubling {} m ∧ m.stack? = some [.bytes (List.replicate 32768 120)] ∧
      ¬ m.Short := by
  obtain ⟨m, hm, hstack⟩ := exists_stack_doubled 15
  refine ⟨m, hm, hstack, fun hshort => ?_⟩
  have hbounded := hm.bounded (by decide) (by decide)
  have hlive := Option.some.inj (hbounded.stack?_eq_live.symm.trans hstack)
  have hlength : Value.Short (.bytes (List.replicate (2 ^ 15) 120)) :=
    hshort.of_mem_live (by rw [hlive]; exact List.mem_singleton_self _)
  rw [Value.Short, List.length_replicate] at hlength
  exact absurd hlength (by decide)

end Machine

end StackMachine
