-- SUMMARY: What a subroutine finds when it is called, and what it cannot lose before it returns.
import StackMachine.Proofs.Continuations
import StackMachine.Proofs.Frames
import StackMachine.Proofs.Parameters

/-!
# Subroutines

A call leaves the address of the next instruction in `$RT` and the height of the
stack in `$FP`. Nothing else saves them: they survive a subroutine that neither
calls another one nor writes the register. What lies below the frame survives
one that does not take it away, and the arguments are counted from the frame
downwards, so that pushing does not move them.
-/

namespace StackMachine

theorem Instruction.length_encode_call (target : Int64) : (call target).encode.length = 9 := by
  simp [encode, operands, Operand.encode, Slot.width]

/-- The register can hold the value. -/
def Register.Takes (r : Register) (v : Value) : Prop :=
  r.isSpecial = false ∨ ∃ i, v = .int i

theorem RegisterFile.set?_eq_none_iff_not_takes (file : RegisterFile) (r : Register)
    (v : Value) : file.set? r v = none ↔ ¬ r.Takes v := by
  rw [set?_eq_none_iff, Register.Takes]
  cases v <;> simp

namespace Machine

variable {program : Bytes} {config : Config} {capacity : Nat} {m m' : Machine}
  {target : Int64}

/-! ## Calls and returns -/

/-- The machine in the subroutine that it has just called. -/
def called (m : Machine) (target : Int64) (journal : Journal) : Machine :=
  { m with
    registers := { m.registers with
      pc := target
      rt := m.registers.pc + 9
      fp := m.registers.sp }
    journal }

section Steps

variable (hsize : program.length < 2 ^ 63) (hcap : capacity < 2 ^ 63)
include hsize hcap

theorem Bounded.step_call (hm : m.Bounded program capacity) (h : m.Executes (.call target))
    (hok : (m.after .step).fault = none) :
    ∃ journal, m.step = .ok .running (m.called target journal) := by
  have hstep := hm.step_of_executes hsize hcap h
    (Q := fun m' => ∃ journal, m' = m.called target journal) (T := fun _ _ => True) ?_
  · obtain ⟨_, hstep, journal, rfl⟩ | ⟨f, m', journal, hstep, -⟩ := hstep
    · exact ⟨journal, hstep⟩
    · -- A fault would have been recorded.
      rw [Machine.after, hstep] at hok
      cases hok
  · intro pc journal hpc _
    change Action.wp (Action.call target >>= fun _ => pure none) _ _ _
    rw [Action.wp_bind, Action.call, Action.wp_bind, Action.wp_checkTarget]
    refine ⟨fun _ => ⟨rfl, journal, ?_⟩, fun _ => ⟨_, rfl, trivial⟩⟩
    rw [Word.eq_add_ofNat hpc, Instruction.length_encode_call]
    rfl

/-- A return goes to the address in `$RT`, if that is in the program. -/
theorem Bounded.step_ret (hm : m.Bounded program capacity) (h : m.Executes .ret) :
    (m.memory.inCode m.registers.rt = true → ∃ journal, m.step = .ok .running
      { m with registers := { m.registers with pc := m.registers.rt }, journal }) ∧
    (¬ m.memory.inCode m.registers.rt = true → ∃ journal, m.step = .ok .running
      { m with
        registers := { m.registers with pc := m.registers.pc + 1 }
        fault := some (.jumpOutOfRange m.registers.rt)
        journal }) := by
  have hstep := hm.step_of_executes hsize hcap h
    (Q := fun m' => m.memory.inCode m.registers.rt = true ∧ ∃ journal, m' =
      { m with registers := { m.registers with pc := m.registers.rt }, journal })
    (T := fun f m' => ¬ m.memory.inCode m.registers.rt = true ∧
      f = .jumpOutOfRange m.registers.rt ∧ ∃ journal, m' = m.goTo (m.registers.pc + 1) journal) ?_
  · obtain ⟨_, hstep, hin, journal, rfl⟩ | ⟨_, _, journal, hstep, hout, rfl, _, rfl⟩ := hstep
    · exact ⟨fun _ => ⟨journal, hstep⟩, fun hout => absurd hin hout⟩
    · exact ⟨fun hin => absurd hin hout, fun _ => ⟨journal, hstep⟩⟩
  · intro pc journal hpc _
    change Action.wp (Action.jump m.registers.rt >>= fun _ => pure none) _ _ _
    rw [Action.wp_bind, Action.wp_jump]
    refine ⟨fun hin => ⟨rfl, hin, journal, rfl⟩, fun hout => ⟨_, rfl, hout, rfl, journal, ?_⟩⟩
    rw [Word.eq_add_ofNat hpc]
    rfl

end Steps

/-- The instruction leaves the return address alone. -/
def SparesReturn (_ : Machine) (i : Instruction) : Prop :=
  (∀ target, i ≠ .call target) ∧ i.destination? ≠ some .rt

section Runs

variable (hsize : program.length < 2 ^ 63) (hstack : config.stackSize < 2 ^ 63)
include hsize hstack

/-- A call that does not fault goes to its target, with the address of the next
    instruction in `$RT` and the height of the stack in `$FP`; it changes nothing
    else. However the subroutine goes on, if it makes no call and does not write
    `$RT`, a return goes back to that instruction and changes nothing else. Behind
    the last instruction there is none to go back to: then the return faults, and
    the registers keep their values but for the program counter, which is at the
    instruction that follows the return. -/
theorem call_returns (hm : Reachable program config m) (hcall : m.Executes (.call target))
    (hok : (m.after .step).fault = none) :
    let back := m.registers.pc + 9
    (∃ journal, m.step = .ok .running { m with
      registers := { m.registers with pc := target, rt := back, fp := m.registers.sp }
      journal }) ∧
    back.toInt = m.registers.pc.toInt + 9 ∧ back.toInt ≤ program.length ∧
    ∀ m', Continues SparesReturn (m.after .step) m' → m'.Executes .ret →
      (back.toInt < program.length → ∃ journal, m'.step = .ok .running
        { m' with registers := { m'.registers with pc := back }, journal }) ∧
      (back.toInt = program.length → ∃ journal, m'.step = .ok .running
        { m' with
          registers := { m'.registers with pc := m'.registers.pc + 1 }
          fault := some (.jumpOutOfRange back)
          journal }) := by
  have hbounded := hm.bounded hsize hstack
  obtain ⟨journal, hstep⟩ := hbounded.step_call hsize hstack hcall hok
  have hnext := hbounded.toInt_next_of_executes hsize hcall
  rw [Instruction.length_encode_call] at hnext
  intro back
  obtain ⟨hback, hend⟩ : back.toInt = m.registers.pc.toInt + 9 ∧ back.toInt ≤ program.length :=
    hnext
  refine ⟨⟨journal, hstep⟩, hback, hend, fun m' hm' hret => ?_⟩
  have hreachable : Reachable program config (m.after .step) := .after _ hm
  have hbounded' := (hm'.reachable hreachable).bounded hsize hstack
  -- No instruction since the call has written the return address.
  have hrt : m'.registers.rt = back := by
    have hget := hm'.get_eq hsize hstack (r := .rt) (by decide) (by decide) hreachable
      fun _ _ h => h
    rw [Machine.after, hstep] at hget
    exact Value.int.inj hget
  have hreturns := hbounded'.step_ret hsize hstack hret
  rw [hbounded'.inCode_iff, hrt] at hreturns
  have hlow := hbounded.zero_le_pc
  refine ⟨fun hlt => hreturns.1 ⟨by omega, hlt⟩, fun heq => hreturns.2 ?_⟩
  rintro ⟨-, hlt⟩
  omega

end Runs

/-- The subroutine pushes a value, and then returns. -/
theorem call_returns_after_push :
    let program := [Instruction.call 11, .halt 0, .pushRegister .fp, .ret].flatMap (·.encode)
    let m := ((ofProgram program { stackSize := 1 }).after .step).after .step
    (∃ journal, m.step = .ok .running
      { m with registers := { m.registers with pc := 9 }, journal }) ∧
      m.stack? = some [.int 0] := by
  intro program m
  have hcall : (ofProgram program { stackSize := 1 }).Executes (.call 11) := by decide
  have hpush : ((ofProgram program { stackSize := 1 }).after .step).Executes
      (.pushRegister .fp) := by decide
  have hret : m.Executes .ret := by decide
  obtain ⟨-, -, -, hreturns⟩ := call_returns (by decide) (by decide) .fresh hcall (by decide)
  have hm := hreturns m (.step_of_executes .refl hpush ⟨nofun, nofun⟩) hret
  exact ⟨hm.1 (by decide), by decide⟩

/-! ## Arguments -/

/-- The instruction leaves the frame with what lies below it alone: it makes no
    call, it writes neither pointer, and it handles none of the `base` lowest slots. -/
structure SparesFrame (base : Nat) (m : Machine) (i : Instruction) : Prop where
  no_call : ∀ target, i ≠ .call target
  fp : i.destination? ≠ some .fp
  sp : i.destination? ≠ some .sp
  below : ∀ index < base, ¬ m.Handles i index

/-- Arguments are counted from the frame downwards, so they do not depend on what
    lies above it. -/
theorem InBounds.argument?_of_frame {vs above : List Value} {k : Int64}
    (h : m.InBounds program capacity) (hlive : vs ++ above = m.live)
    (hfp : m.registers.fp.toInt = vs.length) (hpos : 1 ≤ k.toInt) (hle : k.toInt ≤ vs.length) :
    m.argument? k = vs[vs.length - k.toInt.toNat]? := by
  have hindex : (m.registers.fp - k).toInt = vs.length - k.toInt := by
    have hhigh := m.registers.fp.toInt_lt
    rw [Int64.toInt_sub, hfp]
    exact Int.bmod_eq_of_le (by omega) (by omega)
  have hnat : (vs.length - k.toInt : Int).toNat = vs.length - k.toInt.toNat := by omega
  rw [h.argument?_eq, hindex, if_neg (by omega), hnat, ← hlive,
    List.getElem?_append_left (by omega)]

/-- The step writes an argument into a register. Either the register takes it, or
    it is a byte string for a special register, and the step faults. -/
theorem Bounded.step_param {r : Register} {offset : Int64} {v : Value}
    (hsize : program.length < 2 ^ 63) (hcap : capacity < 2 ^ 63)
    (hm : m.Bounded program capacity) (h : m.Executes (.param r offset)) (hpc : r ≠ .pc)
    (hsp : r ≠ .sp) (hv : m.argument? offset = some v) :
    let passed := { m.registers with pc := m.registers.pc + 10 }
    (∃ registers journal, passed.set? r v = some registers ∧
      m.step = .ok .running { m with registers, journal }) ∨
    passed.set? r v = none ∧ ∃ journal, m.step = .ok .running
      { m with registers := passed, fault := some (.specialRegister r), journal } := by
  intro passed
  obtain ⟨hrefused, htaken⟩ := (hm.step_of_param hsize hcap h).2 v hv
  cases hrefusal : m.refusal? r v with
  | none => exact .inl (htaken hrefusal)
  | some f =>
    obtain ⟨rfl, hset⟩ := eq_specialRegister_of_refusal? hpc hsp hrefusal passed
    exact .inr ⟨hset, hrefused _ hrefusal⟩

section Runs

variable (hsize : program.length < 2 ^ 63) (hstack : config.stackSize < 2 ^ 63)
include hsize hstack

/-- What is on the stack stays below all that comes to lie on it. -/
theorem Continues.isPrefix_live (hm : Reachable program config m)
    (h : Continues (SparesFrame m.live.length) m m') : m.live <+: m'.live := by
  induction h with
  | refl => exact List.prefix_rfl
  | @step n h hP ih =>
    have hn := (h.reachable hm).bounded hsize hstack
    have hkept := hn.isPrefix_live_step hsize hstack ih.length_le (fun i hi => (hP i hi).sp)
      fun i hi => (hP i hi).below
    rwa [← List.prefix_iff_eq_take.1 ih] at hkept
  | terminate _ _ ih => exact ih
  | output _ _ ih => exact ih

/-- However a subroutine goes on after a call that does not fault, if it spares the
    frame, the values that the caller had on the stack are still there and `$FP` is
    their number. Wherever it then asks for an argument, it gets the one that
    lies as far below the frame, whatever has been pushed since; only a byte
    string for `$RT` is refused. Nothing else changes. -/
theorem call_keeps_arguments {vs : List Value} (hm : Reachable program config m)
    (hcall : m.Executes (.call target)) (hok : (m.after .step).fault = none)
    (hvs : m.stack? = some vs) (hm' : Continues (SparesFrame vs.length) (m.after .step) m') :
    (∃ above, m'.stack? = some (vs ++ above)) ∧ m'.registers.fp.toInt = vs.length ∧
    ∀ r k, m'.Executes (.param r k) → 1 ≤ k.toInt → k.toInt ≤ vs.length →
      r ≠ .fp → r ≠ .sp → r ≠ .pc →
      ∃ v, vs[vs.length - k.toInt.toNat]? = some v ∧
        (r.Takes v →
          ∃ registers journal, m'.step = .ok .running { m' with registers, journal } ∧
            registers.get r = v ∧ registers.pc = m'.registers.pc + 10 ∧
            ∀ s, s ≠ r → s ≠ .pc → registers.get s = m'.registers.get s) ∧
        (¬ r.Takes v → r = .rt ∧
          ∃ journal, m'.step = .ok .running
            { m' with
              registers := { m'.registers with pc := m'.registers.pc + 10 }
              fault := some (.specialRegister r)
              journal }) := by
  have hbounded := hm.bounded hsize hstack
  obtain ⟨journal, hstep⟩ := hbounded.step_call hsize hstack hcall hok
  have hreachable : Reachable program config (m.after .step) := .after _ hm
  have hcalled : m.after .step = m.called target journal := by rw [Machine.after, hstep, leftBy]
  rw [hcalled] at hm' hreachable
  obtain rfl : vs = m.live := Option.some.inj (hvs.symm.trans hbounded.stack?_eq_live)
  have hbounded' := (hm'.reachable hreachable).bounded hsize hstack
  obtain ⟨above, habove⟩ := Continues.isPrefix_live hsize hstack hreachable hm'
  change m.live ++ above = m'.live at habove
  have hfp : m'.registers.fp = m.registers.sp :=
    Value.int.inj (hm'.get_eq hsize hstack (r := .fp) (by decide) (by decide) hreachable
      fun _ _ h => ⟨h.no_call, h.fp⟩)
  have hframe : m'.registers.fp.toInt = m.live.length := by rw [hfp, hbounded.toInt_sp]
  refine ⟨⟨above, by rw [habove]; exact hbounded'.stack?_eq_live⟩, hframe, ?_⟩
  intro r k hparam hpos hle hrfp hrsp hrpc
  have hargument := hbounded'.argument?_of_frame habove hframe hpos hle
  have hindex : m.live.length - k.toInt.toNat < m.live.length := by omega
  rw [List.getElem?_eq_getElem hindex] at hargument
  refine ⟨_, List.getElem?_eq_getElem hindex, ?_⟩
  generalize m.live[m.live.length - k.toInt.toNat] = v at hargument
  obtain ⟨registers, journal', hset, hstep'⟩ | ⟨hset, journal', hstep'⟩ :=
    hbounded'.step_param hsize hstack hparam hrpc hrsp hargument
  · refine ⟨fun _ => ⟨registers, journal', hstep', RegisterFile.get_set? hset, ?_, ?_⟩, ?_⟩
    · exact Value.int.inj (RegisterFile.get_set?_of_ne hset hrpc)
    · intro s hs hspc
      rw [RegisterFile.get_set?_of_ne hset hs.symm, Action.get_withPc hspc]
    · intro hrefused
      rw [(RegisterFile.set?_eq_none_iff_not_takes ..).2 hrefused] at hset
      cases hset
  · have hrefused := (RegisterFile.set?_eq_none_iff_not_takes ..).1 hset
    refine ⟨fun htakes => absurd htakes hrefused, fun _ => ⟨?_, journal', hstep'⟩⟩
    cases r with
    | rt => rfl
    | general i => exact absurd (.inl rfl) hrefused
    | pc => exact absurd rfl hrpc
    | sp => exact absurd rfl hrsp
    | fp => exact absurd rfl hrfp

end Runs

/-- The subroutine pushes a value, and the argument is still the caller's. -/
theorem call_keeps_arguments_after_push :
    let program := [Instruction.pushInt 7, .call 20, .halt 0, .pushRegister .fp,
      .param (.general 1) 1].flatMap (·.encode)
    let caller := (ofProgram program { stackSize := 2 }).after .step
    let m := (caller.after .step).after .step
    caller.stack? = some [.int 7] ∧ m.stack? = some [.int 7, .int 1] ∧
      m.registers.fp.toInt = 1 ∧
      ∃ registers journal, m.step = .ok .running { m with registers, journal } ∧
        registers.get (.general 1) = .int 7 := by
  intro program caller m
  have hcaller : Reachable program { stackSize := 2 } caller := .after _ .fresh
  have hcall : caller.Executes (.call 20) := by decide
  have hpush : (caller.after .step).Executes (.pushRegister .fp) := by decide
  have hparam : m.Executes (.param (.general 1) 1) := by decide
  have hvs : caller.stack? = some [.int 7] := by decide
  have hspares : SparesFrame 1 (caller.after .step) (.pushRegister .fp) :=
    ⟨nofun, nofun, nofun, fun index _ => not_handles rfl index⟩
  have hm : Continues (SparesFrame 1) (caller.after .step) m :=
    .step_of_executes .refl hpush hspares
  obtain ⟨-, hfp, harguments⟩ :=
    call_keeps_arguments (by decide) (by decide) hcaller hcall (by decide) hvs hm
  obtain ⟨v, hv, hset, -⟩ := harguments (.general 1) 1 hparam (by decide) (by decide)
    (by decide) (by decide) (by decide)
  obtain rfl : v = .int 7 := Option.some.inj (hv.symm.trans (by decide))
  obtain ⟨registers, journal, hstep, hget, -⟩ := hset (.inl rfl)
  exact ⟨hvs, by decide, by rw [hfp]; rfl, registers, journal, hstep, hget⟩

end Machine

end StackMachine
