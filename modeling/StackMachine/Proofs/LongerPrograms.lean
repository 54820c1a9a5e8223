-- SUMMARY: Bytes behind a program make no difference to steps that stay inside it.
import StackMachine.Proofs.PairedRuns

/-!
# Longer programs

Where a program ends shows in two ways only: an instruction is cut off by the end,
or the address of a jump lies behind it. Until one of them occurs, a machine on a
program with more bytes behind it does what one on the program alone does. A machine
that has ended may stand at the end of its program: it reads nothing any more, so
that it does not matter what there would be to read.
-/

namespace StackMachine

/-! ## Memories with longer programs -/

namespace Memory

/-- The program of `N` begins with that of `M`, and the slots are the same. -/
structure ContinuedBy (M N : Memory) : Prop where
  code : M.code.toList <+: N.code.toList
  slots : N.slots = M.slots

namespace ContinuedBy

variable {M N : Memory} (h : M.ContinuedBy N)
include h

theorem size_le : M.code.size ≤ N.code.size := by
  simpa using h.code.length_le

theorem byte? {address : Int64} {b : UInt8} (hb : M.byte? address = some b) :
    N.byte? address = some b := by
  unfold Memory.byte? at hb ⊢
  split at hb
  · rename_i hlow
    rw [← Array.getElem?_toList] at hb
    obtain ⟨rest, hrest⟩ := h.code
    obtain ⟨hlt, -⟩ := List.getElem?_eq_some_iff.1 hb
    rw [if_pos hlow, ← Array.getElem?_toList, ← hrest, List.getElem?_append_left hlt, hb]
  · cases hb

theorem inCode {target : Int64} (hin : M.inCode target = true) : N.inCode target = true := by
  have hle := h.size_le
  simp only [Memory.inCode, Bool.and_eq_true, decide_eq_true_eq] at hin ⊢
  omega

theorem capacity_eq : N.capacity = M.capacity :=
  congrArg Array.size h.slots

theorem slot?_eq (i : Nat) : N.slot? i = M.slot? i :=
  congrArg (·[i]?) h.slots

theorem put (i : Nat) (v : Value) : (M.put i v).ContinuedBy (N.put i v) :=
  ⟨h.code, congrArg (·.setIfInBounds i v) h.slots⟩

theorem swap (i j : Nat) : (M.swap i j).ContinuedBy (N.swap i j) :=
  ⟨h.code, congrArg (·.swapIfInBounds i j) h.slots⟩

end ContinuedBy

theorem continuedBy_ofProgram (p q : Bytes) (capacity : Nat) :
    (ofProgram p capacity).ContinuedBy (ofProgram (p ++ q) capacity) :=
  ⟨List.prefix_append p q, rfl⟩

end Memory

/-! ## Reading from longer programs -/

namespace Fetch

/-- The reading gives the same on a longer program, unless it comes to the end of the
    shorter one. -/
def StaysInside (r : Fetch α) : Prop :=
  ∀ ⦃M N : Memory⦄ (pc : Int64), M.ContinuedBy N →
    (∀ offset stop, r M pc ≠ .error (.unexpectedEnd offset) stop) → r N pc = r M pc

theorem StaysInside.bind {r : Fetch α} {g : α → Fetch β} (hr : StaysInside r)
    (hg : ∀ a, StaysInside (g a)) : StaysInside (r >>= g) := by
  intro M N pc h hends
  rw [bind_apply] at hends ⊢
  rw [bind_apply]
  cases hfirst : r M pc with
  | ok a mid =>
    rw [hr pc h fun offset stop => by rw [hfirst]; exact nofun, hfirst]
    simp only [hfirst] at hends
    exact hg a mid h hends
  | error f mid =>
    have hsame : r N pc = r M pc := by
      refine hr pc h fun offset stop hend => ?_
      cases hfirst.symm.trans hend
      simp only [hfirst] at hends
      exact hends offset mid rfl
    rw [hsame, hfirst]

theorem staysInside_byte : StaysInside byte := by
  intro M N pc h hends
  unfold byte at hends ⊢
  cases hb : M.byte? pc with
  | some b => rw [h.byte? hb]
  | none =>
    rw [hb] at hends
    exact absurd rfl (hends _ _)

theorem closed_staysInside : Closed StaysInside where
  pure _ _ _ _ _ _ := rfl
  throw _ _ _ _ _ _ _ := rfl
  get _ _ _ _ _ := rfl
  bind hr hg := hr.bind hg
  byte := staysInside_byte

end Fetch

/-! ## Machines with longer programs -/

/-- The second machine has more bytes behind its program. -/
def Likeness.ofContinuation : Likeness where
  memory := Memory.ContinuedBy
  tracing := Eq
  output := Eq

theorem Action.compatible_ofContinuation :
    Compatible Likeness.ofContinuation fun f _ _ => ∃ target, f = .jumpOutOfRange target where
  slot h hv := (h.slot?_eq _).trans hv
  put v h _ := h.put _ v
  swap h _ _ := h.swap _ _
  capacity h := .inl h.capacity_eq
  inCode h := h.inCode
  code target _ := .inr fun _ _ => ⟨target, rfl⟩
  tracing := congrArg (!·)
  print := respects_printLine

namespace Machine

variable {program : Bytes} {capacity : Nat} {m n : Machine}

/-- If the next step does not come to the end of the program, a machine on a longer
    program decodes the same. -/
theorem Ready.decode_eq_of_continuation (hsize : program.length < 2 ^ 63)
    (hcap : capacity < 2 ^ 63) (hm : m.Ready program capacity) (hgo : m.terminating = false)
    (h : Likeness.ofContinuation.Relates m n)
    (hends : ∀ offset, returned m.step ≠ .error (.malformed (.unexpectedEnd offset))) :
    Fetch.decode n.memory n.registers.pc = Fetch.decode m.memory m.registers.pc := by
  rw [h.registers]
  refine Fetch.closed_staysInside.decode _ h.memory fun offset stop hdecoded => ?_
  obtain ⟨journal, hstep⟩ := (hm.cycles hsize hcap hgo).of_decode_eq_error hdecoded
  exact hends offset (by rw [hstep, returned])

/-- As long as the steps of a fresh machine neither come to the end of the program nor
    record a jump out of it, a machine on a program with more bytes behind it returns
    the same from each step, statuses as well as malformations, and ends up with the
    same registers, live stack, flag, fault, exit code and output. -/
theorem steps_with_longer_program (p q : Bytes) (config : Config) (n : Nat)
    (hsize : (p ++ q).length < 2 ^ 63) (hstack : config.stackSize < 2 ^ 63) :
    let short := ofProgram p config
    let long := ofProgram (p ++ q) config
    (∀ offset, .error (.malformed (.unexpectedEnd offset)) ∉ short.replies n) →
    (∀ k ≤ n, ∀ target, (short.afterSteps k).fault ≠ some (.jumpOutOfRange target)) →
    long.replies n = short.replies n ∧
    (long.afterSteps n).registers = (short.afterSteps n).registers ∧
    (long.afterSteps n).stack? = (short.afterSteps n).stack? ∧
    (long.afterSteps n).flag = (short.afterSteps n).flag ∧
    (long.afterSteps n).fault = (short.afterSteps n).fault ∧
    (long.afterSteps n).exitCode = (short.afterSteps n).exitCode ∧
    (long.afterSteps n).output = (short.afterSteps n).output := by
  intro short long hends hjumps
  have hsize' : p.length < 2 ^ 63 := by
    rw [List.length_append] at hsize
    omega
  have hmn : Likeness.ofContinuation.Relates short long :=
    Likeness.relates_ofProgram (Memory.continuedBy_ofProgram p q config.stackSize) rfl rfl
  have hshort : short.Bounded p config.stackSize := (ready_ofProgram p config).bounded
  have hlong : long.Bounded (p ++ q) config.stackSize := (ready_ofProgram (p ++ q) config).bounded
  obtain ⟨hreplies, halike⟩ | ⟨k, hk, -, f, m, journal, ⟨target, rfl⟩, heq⟩ :=
    relates_or_setApart_of_going hsize' hstack hsize hstack Action.compatible_ofContinuation
      hmn hshort hlong n fun k hk halike hready hgo =>
        hready.decode_eq_of_continuation hsize' hstack hgo halike fun offset hreply =>
          hends offset (mem_replies_iff.2 ⟨k, hk, hreply.symm⟩)
  · have hlast := halike n (Nat.le_refl n)
    obtain ⟨stack, hlive⟩ := (hshort.afterSteps hsize' hstack n).exists_stack
    have hlive' := Action.compatible_ofContinuation.stack?_of_relates hlast hlive
    exact ⟨hreplies, hlast.registers, hlive'.trans hlive.symm, hlast.flag, hlast.fault,
      hlast.exitCode, hlast.output.symm⟩
  -- The fault that would set them apart is a jump out of the shorter program.
  · have hfault : (short.afterSteps (k + 1)).fault = some (.jumpOutOfRange target) := by rw [heq]
    exact absurd hfault (hjumps (k + 1) hk target)

/-- A program that jumps to a byte which is no opcode, and goes on to halt with its last
    byte. Steps after the halt do not read the byte that may follow it. -/
theorem steps_with_longer_program_after_halt :
    let p := [Opcode.jump.byte, 18, 0, 0, 0, 0, 0, 0, 0, 255, Opcode.halt.byte, 7]
    let short := ofProgram p { stackSize := 2 }
    let long := ofProgram (p ++ [Opcode.pop.byte]) { stackSize := 2 }
    short.replies 4 = [.ok .running, .error (.malformed (.unknownOpcode 255 9)),
      .ok (.halted 7), .ok (.halted 7)] ∧
    (∀ k ≤ 4, (short.afterSteps k).fault = none) ∧
    long.replies 4 = short.replies 4 ∧
    (long.afterSteps 4).registers.pc = 12 ∧
    (long.afterSteps 4).exitCode = some 7 := by
  intro p short long
  have hreplies : short.replies 4 = [.ok .running, .error (.malformed (.unknownOpcode 255 9)),
      .ok (.halted 7), .ok (.halted 7)] := by decide
  have hfaults : ∀ k ≤ 4, (short.afterSteps k).fault = none := by decide
  obtain ⟨hsame, hregisters, -, -, -, hexit, -⟩ :=
    steps_with_longer_program p [Opcode.pop.byte] { stackSize := 2 } 4 (by decide) (by decide)
      (fun offset => by simp [short, hreplies]) fun k hk target => by simp [short, hfaults k hk]
  refine ⟨hreplies, hfaults, hsame, ?_, hexit.trans (by decide)⟩
  rw [hregisters]
  decide

end Machine

end StackMachine
