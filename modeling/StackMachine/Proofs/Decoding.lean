-- SUMMARY: A step decodes at the program counter what a listing reads there, or fails as the listing does.
import StackMachine.Proofs.ControlFlow
import StackMachine.Proofs.Encoding
import StackMachine.Proofs.Stepping

/-!
# Decoding

A machine that is ready and a listing meet the same bytes with the same result.
Where the listing has an instruction the step executes that instruction, and
where the listing has a malformation the step ends in it. Neither the stack nor
a register other than the program counter nor the flag has a say in that.
-/

namespace StackMachine
namespace Machine

variable {program : Bytes} {capacity : Nat} {m : Machine}

/-- The place of the program that the program counter points to. -/
theorem InBounds.placeAt_eq {offset : Nat} (h : m.InBounds program capacity)
    (hpc : m.registers.pc.toInt = offset) :
    m.memory.placeAt m.registers.pc = ⟨offset, program.drop offset⟩ := by
  unfold Memory.placeAt
  rw [hpc, h.code]
  rfl

/-- Targets are found without the journal. -/
theorem target?_goTo (i : Instruction) (pc : Int64) (journal journal' : Journal) :
    (m.goTo pc journal).target? i = (m.goTo pc journal').target? i := rfl

/-- The machine that a step leaves after it has executed the instruction `i`: it
    goes on at the target of the instruction. Without one, and so whenever it
    has faulted, it goes on behind the instruction. -/
def Passes (m : Machine) (i : Instruction) (next : Place) (m' : Machine) : Prop :=
  ∃ pc : Int64, pc.toInt = next.offset ∧
    m'.registers.pc = ((m.goTo pc m.journal).target? i).getD pc ∧
    (m'.fault.isSome → (m.goTo pc m.journal).target? i = none)

section Steps

variable (hsize : program.length < 2 ^ 63)
include hsize

theorem Ready.agree_decode {offset : Nat} (hm : m.Ready program capacity)
    (hpc : m.registers.pc.toInt = offset) :
    Fetch.Agree m.memory (m.registers.pc.toInt + 1) (Fetch.Lists m.registers.pc)
      (Entry.read? ⟨offset, program.drop offset⟩) (Fetch.decode m.memory m.registers.pc) := by
  have hcode : m.memory.code.size < 2 ^ 63 := by rw [hm.code_size]; exact hsize
  rw [← hm.placeAt_eq hpc]
  exact Fetch.agree_decode hcode hm.inReach

/-- What is decoded is what is read at the program counter. -/
theorem Ready.read?_of_decode_eq_ok {i : Instruction} {pc : Int64}
    (hm : m.Ready program capacity) (hi : Fetch.decode m.memory m.registers.pc = .ok i pc) :
    let offset := m.registers.pc.toInt.toNat
    Entry.read? ⟨offset, program.drop offset⟩ =
      .ok (⟨offset, i.opcode, i.operands⟩, m.memory.placeAt pc) ∧ m.memory.InReach pc := by
  have hpc := hm.toInt_pc
  have hagree := hm.agree_decode hsize hpc
  intro offset
  rw [hi] at hagree
  match hread : Entry.read? _, hagree with
  | .ok (⟨start, opcode, operands⟩, next), ⟨⟨hstart, hopcode, hoperands⟩, _, hreach, hnext⟩ =>
    dsimp only at hstart hopcode hoperands
    obtain rfl : start = offset := Int.ofNat_inj.1 (hstart.trans hpc)
    rw [hopcode, hoperands, hnext]
    exact ⟨rfl, hreach⟩

/-- What is decoded ends as far on as it has bytes. -/
theorem Ready.toInt_of_decode_eq_ok {i : Instruction} {pc : Int64}
    (hm : m.Ready program capacity) (hi : Fetch.decode m.memory m.registers.pc = .ok i pc) :
    pc.toInt = m.registers.pc.toInt + i.encode.length := by
  obtain ⟨hread, hreach⟩ := hm.read?_of_decode_eq_ok hsize hi
  have hoffset := (Entry.advances_read? hread).2.offset_eq
  rw [Entry.width_eq] at hoffset
  rw [← Fetch.cast_placeAt_offset hreach, hoffset, Int.natCast_add, ← hm.toInt_pc]
  rfl

/-- An instruction that faults passes behind itself. -/
theorem Ready.passes_of_faulted {i : Instruction} {pc : Int64} {journal journal' : Journal}
    {f : Fault} {m' : Machine} (hm : m.Ready program capacity)
    (hi : Fetch.decode m.memory m.registers.pc = .ok i pc)
    (h : Action.execute i (m.goTo pc journal) = .error (.fault f) m') :
    m.Passes i (m.memory.placeAt pc) { m' with fault := some f, journal := journal' } := by
  have hcode : m.memory.code.size < 2 ^ 63 := by rw [hm.code_size]; exact hsize
  have hreach : m.memory.InReach pc := Fetch.inReach_of_decode_eq_ok hcode hm.inReach hi
  have hgoes := Action.goesTo_execute i (m := m.goTo pc journal)
  unfold Action.GoesTo Action.wp at hgoes
  rw [h] at hgoes
  obtain ⟨hpc, htarget⟩ := hgoes
  rw [target?_goTo i pc journal m.journal] at htarget
  refine ⟨pc, (Fetch.cast_placeAt_offset hreach).symm, ?_, fun _ => htarget⟩
  rw [htarget]
  exact hpc

variable (hcap : capacity < 2 ^ 63)
include hcap

/-- Where the listing has a malformation, the step ends in it. -/
theorem Ready.step_of_read?_eq_error {offset : Nat} {f : Malformation}
    (hm : m.Ready program capacity) (hgo : m.terminating = false)
    (hpc : m.registers.pc.toInt = offset)
    (h : Entry.read? ⟨offset, program.drop offset⟩ = .error f) :
    ∃ m', m.step = .error (.malformed f) m' := by
  have hagree := hm.agree_decode hsize hpc
  have hcycles := hm.cycles hsize hcap hgo
  rw [h] at hagree
  cases hdecoded : Fetch.decode m.memory m.registers.pc with
  | ok i pc =>
    rw [hdecoded] at hagree
    exact hagree.elim
  | error g pc =>
    rw [hdecoded] at hagree
    obtain ⟨rfl, -⟩ := hagree
    generalize m.step = r at hcycles
    cases hcycles with
    | malformed decoded =>
      rw [hdecoded] at decoded
      cases decoded
      exact ⟨_, rfl⟩
    | halted decoded | ran decoded | faulted decoded =>
      rw [hdecoded] at decoded
      cases decoded

/-- An instruction that is executed to its end passes to its target or behind it. -/
theorem Ready.passes_of_executed {i : Instruction} {pc : Int64} {journal : Journal}
    {code : Option UInt8} {m' : Machine} (hm : m.Ready program capacity)
    (hi : Fetch.decode m.memory m.registers.pc = .ok i pc)
    (h : Action.execute i (m.goTo pc journal) = .ok code m') :
    m.Passes i (m.memory.placeAt pc) m' := by
  have hcode : m.memory.code.size < 2 ^ 63 := by rw [hm.code_size]; exact hsize
  have hreach : m.memory.InReach pc := Fetch.inReach_of_decode_eq_ok hcode hm.inReach hi
  have hgoes := Action.goesTo_execute i (m := m.goTo pc journal)
  unfold Action.GoesTo Action.wp at hgoes
  rw [h] at hgoes
  refine ⟨pc, (Fetch.cast_placeAt_offset hreach).symm, hgoes, fun hfault => ?_⟩
  rw [(hm.of_execute_eq_ok hsize hcap hi h).fault] at hfault
  cases hfault

/-- Where the listing has an instruction, the step executes it. -/
theorem Ready.step_of_read?_eq_ok {offset : Nat} {e : Entry} {next : Place}
    (hm : m.Ready program capacity) (hgo : m.terminating = false)
    (hpc : m.registers.pc.toInt = offset)
    (h : Entry.read? ⟨offset, program.drop offset⟩ = .ok (e, next)) :
    ∃ i status m', Fetch.Lists m.registers.pc e i ∧ m.step = .ok status m' ∧
      m.Passes i next m' := by
  have hagree := hm.agree_decode hsize hpc
  have hcycles := hm.cycles hsize hcap hgo
  rw [h] at hagree
  cases hdecoded : Fetch.decode m.memory m.registers.pc with
  | error g pc =>
    rw [hdecoded] at hagree
    exact hagree.elim
  | ok i pc =>
    rw [hdecoded] at hagree
    obtain ⟨hlists, -, -, rfl⟩ := hagree
    generalize m.step = r at hcycles
    cases hcycles with
    | malformed decoded =>
      rw [hdecoded] at decoded
      cases decoded
    | halted decoded executed =>
      rw [hdecoded] at decoded
      cases decoded
      have hpasses := hm.passes_of_executed hsize hcap hdecoded executed
      exact ⟨i, _, _, hlists, rfl, hpasses⟩
    | ran decoded executed =>
      rw [hdecoded] at decoded
      cases decoded
      exact ⟨i, _, _, hlists, rfl, hm.passes_of_executed hsize hcap hdecoded executed⟩
    | faulted decoded executed =>
      rw [hdecoded] at decoded
      cases decoded
      exact ⟨i, _, _, hlists, rfl, hm.passes_of_faulted hsize hdecoded executed⟩

/-- A step ends in the malformations that the listing has at the program counter. -/
theorem Ready.step_malformed_iff {offset : Nat} {f : Malformation}
    (hm : m.Ready program capacity) (hgo : m.terminating = false)
    (hpc : m.registers.pc.toInt = offset) :
    (∃ m', m.step = .error (.malformed f) m') ↔
      Entry.read? ⟨offset, program.drop offset⟩ = .error f := by
  constructor
  · rintro ⟨m', hstep⟩
    cases h : Entry.read? ⟨offset, program.drop offset⟩ with
    | error g =>
      obtain ⟨_, hg⟩ := hm.step_of_read?_eq_error hsize hcap hgo hpc h
      rw [hstep] at hg
      cases hg
      rfl
    | ok r =>
      obtain ⟨_, _, _, -, hok, -⟩ := hm.step_of_read?_eq_ok hsize hcap hgo hpc h
      rw [hstep] at hok
      cases hok
  · exact hm.step_of_read?_eq_error hsize hcap hgo hpc

/-- A machine that is ready and not asked to stop decodes as a listing does. If
    the listing has a malformation at the program counter, a step ends in it, and
    in no other. If it has an instruction there, the step executes just that one
    and leaves the program counter at the next place of the listing, unless the
    instruction has a target and no fault. Every other such machine at the same
    place ends in the same malformation, and the instructions of a whole listing
    lie end to end. -/
theorem step_agrees_with_listing {offset : Nat} (hm : m.Ready program capacity)
    (hgo : m.terminating = false) (hpc : m.registers.pc.toInt = offset) :
    (∀ f, Entry.read? ⟨offset, program.drop offset⟩ = .error f ↔
      ∃ m', m.step = .error (.malformed f) m') ∧
    (∀ e next, Entry.read? ⟨offset, program.drop offset⟩ = .ok (e, next) →
      (e.offset = offset ∧ next = ⟨offset + e.width, program.drop (offset + e.width)⟩) ∧
      ∃ i status m', i.opcode = e.opcode ∧ i.operands = e.operands ∧
        m.step = .ok status m' ∧ m.Passes i next m') ∧
    (∀ (capacity' : Nat) (m₂ : Machine), capacity' < 2 ^ 63 → m₂.Ready program capacity' →
      m₂.terminating = false → m₂.registers.pc = m.registers.pc →
      ∀ f, (∃ m', m₂.step = .error (.malformed f) m') ↔
        ∃ m', m.step = .error (.malformed f) m') ∧
    ∀ entries, Listing.entries? program = .ok entries →
      Listing.Tiles 0 entries program.length := by
  refine ⟨fun f => (hm.step_malformed_iff hsize hcap hgo hpc).symm, fun e next h => ⟨?_, ?_⟩,
    fun capacity' m₂ hcap' hm₂ hgo₂ hpc₂ f => ?_, fun entries => Listing.tiles_entries?⟩
  · obtain ⟨hoffset, -, hnext⟩ := Entry.advances_read? h
    refine ⟨hoffset, hnext.trans ?_⟩
    rw [Place.skip, List.drop_drop]
  · obtain ⟨i, status, m', hlists, hstep, hpasses⟩ :=
      hm.step_of_read?_eq_ok hsize hcap hgo hpc h
    exact ⟨i, status, m', hlists.2.1.symm, hlists.2.2.symm, hstep, hpasses⟩
  · rw [hm.step_malformed_iff hsize hcap hgo hpc,
      hm₂.step_malformed_iff hsize hcap' hgo₂ (by rw [hpc₂]; exact hpc)]

end Steps

/-- An unknown register behind a known one, in a comparison. -/
theorem step_agrees_with_listing_of_unknown_register :
    ∃ m', (ofProgram [Opcode.compare.byte, 0, 99] { stackSize := 4 }).step =
      .error (.malformed (.unknownRegister 99 2)) m' := by
  have hpc : (ofProgram [Opcode.compare.byte, 0, 99] { stackSize := 4 }).registers.pc.toInt =
      (0 : Nat) := rfl
  have h := step_agrees_with_listing (by decide) (by decide) (ready_ofProgram _ _) rfl hpc
  exact (h.1 _).1 rfl

end Machine
end StackMachine
