-- SUMMARY: A program that jumps to labels only stays on the boundaries of its instructions.
import StackMachine.Proofs.Decoding
import StackMachine.Proofs.Reachability
import StackMachine.Proofs.RoundTrip

/-!
# Instruction boundaries

The boundaries of a program are the offsets of its instructions and its end. From
a boundary a machine reads a whole instruction, behind which there is a boundary
again, so it leaves the boundaries only by a jump. If a source jumps to labels
only, and never writes the program counter or the return address by hand, all its
jumps go to boundaries, and the one malformation it can meet is its end.
-/

namespace StackMachine

/-! ## Boundaries -/

namespace Listing

variable {start stop : Nat} {entries : List Entry} {e : Entry}

/-- The address is the offset of an instruction, or the end of the program. -/
def Boundary (entries : List Entry) (stop : Nat) (address : Int) : Prop :=
  address = stop ∨ ∃ e ∈ entries, address = e.offset

theorem Tiles.boundary_start (h : Tiles start entries stop) : Boundary entries stop start := by
  cases entries with
  | nil => exact .inl (congrArg _ h)
  | cons e entries => exact .inr ⟨e, List.mem_cons_self, congrArg _ h.1.symm⟩

theorem Tiles.length_encode (h : Tiles start entries stop) :
    start + (entries.flatMap Entry.encode).length = stop := by
  induction entries generalizing start with
  | nil => exact h
  | cons e entries ih =>
    rw [List.flatMap_cons, List.length_append, ← Entry.width_eq, ← Nat.add_assoc]
    exact ih h.2

/-- The instructions before one of them, and those behind it. -/
theorem Tiles.exists_split (h : Tiles start entries stop) (he : e ∈ entries) :
    ∃ before after, entries = before ++ e :: after ∧ Tiles start before e.offset ∧
      Tiles (e.offset + e.width) after stop := by
  induction entries generalizing start with
  | nil => cases he
  | cons first entries ih =>
    obtain ⟨rfl, hrest⟩ := h
    cases he with
    | head => exact ⟨[], entries, rfl, rfl, hrest⟩
    | tail _ he =>
      obtain ⟨before, after, rfl, hbefore, hafter⟩ := ih hrest he
      exact ⟨first :: before, after, rfl, ⟨rfl, hbefore⟩, hafter⟩

/-- Behind the instructions before it come the bytes of an instruction. -/
theorem Tiles.drop_encode {before after : List Entry} (h : Tiles 0 before e.offset) :
    ((before ++ e :: after).flatMap Entry.encode).drop e.offset =
      e.encode ++ after.flatMap Entry.encode := by
  have hlength : (before.flatMap Entry.encode).length = e.offset := by
    simpa using h.length_encode
  rw [List.flatMap_append, List.flatMap_cons, ← hlength, List.drop_left]

theorem Tiles.getElem?_offset (h : Tiles 0 entries stop) (he : e ∈ entries) :
    (entries.flatMap Entry.encode)[e.offset]? = some e.opcode.byte := by
  obtain ⟨before, after, rfl, hbefore, -⟩ := h.exists_split he
  rw [← List.head?_drop, hbefore.drop_encode]
  rfl

/-- At the offset of an instruction that one is read, up to the next boundary. -/
theorem Tiles.read?_of_mem (h : Tiles 0 entries stop) (hforms : ∀ e ∈ entries, e.WellFormed)
    (he : e ∈ entries) :
    ∃ next, Entry.read? ⟨e.offset, (entries.flatMap Entry.encode).drop e.offset⟩ =
      .ok (e, next) ∧ Boundary entries stop next.offset := by
  obtain ⟨before, after, rfl, hbefore, hafter⟩ := h.exists_split he
  refine ⟨⟨e.offset + e.width, after.flatMap Entry.encode⟩, ?_, ?_⟩
  · rw [hbefore.drop_encode]
    exact Entry.read?_encode (hforms e he) _
  · obtain hend | ⟨e', he', hoffset⟩ := hafter.boundary_start
    · exact .inl hend
    · exact .inr ⟨e', by simp [he'], hoffset⟩

end Listing

/-! ## Guided instructions -/

namespace Instruction

/-- The address that a jump or a call is given. -/
def branch? : Instruction → Option Int64
  | jump target | jumpTop _ target | jumpFlag _ target | call target => some target
  | _ => none

/-- If the instruction goes elsewhere, then to an address in `B` that it names, or
    to the return address. It writes the return address only by calling. -/
structure Guided (B : Int → Prop) (i : Instruction) : Prop where
  branch : ∀ target, i.branch? = some target → B target.toInt
  register : ∀ r, i ≠ jumpRegister r
  ne_pc : i.destination? ≠ some .pc
  ne_rt : i.destination? ≠ some .rt

end Instruction

namespace Machine

variable {m : Machine} {i : Instruction} {B : Int → Prop} {target : Int64}

theorem destination?_of_target? (h : m.target? i = some target) :
    m.destination? i = some (.int target) := by
  unfold target? at h
  cases hdest : m.destination? i with
  | none =>
    rw [hdest] at h
    cases h
  | some v =>
    rw [hdest] at h
    cases v with
    | bytes b => cases h
    | int t =>
      simp only [address?] at h
      split at h
      · cases h
        rfl
      · cases h

/-- A jump that names an address goes there or nowhere else. -/
theorem destination?_of_branch? (h : i.branch? = some target) :
    m.destination? i = none ∨ m.destination? i = some (.int target) := by
  cases i with
  | jump t | call t =>
    cases h
    exact .inr rfl
  | jumpTop c t =>
    cases h
    unfold destination?
    dsimp only
    split
    · exact (ite_eq_or_eq _ _ _).symm
    · exact .inl rfl
  | jumpFlag c t =>
    cases h
    exact (ite_eq_or_eq _ _ _).symm
  | _ => cases h

/-- Where an instruction goes if not to the next one: to the address that it names, to
    one in a register, or to the return address; or the program counter is its
    destination. -/
theorem target_cases (h : m.target? i = some target) :
    i.branch? = some target ∨ (∃ r, i = .jumpRegister r) ∨
    (i = .ret ∧ target = m.registers.rt) ∨ i.destination? = some .pc := by
  have hdest := destination?_of_target? h
  have hne (hnone : m.destination? i = none) : False := by
    rw [hnone] at hdest
    cases hdest
  cases hbranch : i.branch? with
  | some t =>
    obtain hnone | hsome := destination?_of_branch? (m := m) hbranch
    · exact (hne hnone).elim
    · cases hdest.symm.trans hsome
      exact .inl rfl
  | none =>
    cases i with
    | jump | jumpTop | jumpFlag | call => cases hbranch
    | ret =>
      have hrt : some (Value.int m.registers.rt) = some (.int target) := hdest
      cases hrt
      exact .inr (.inr (.inl ⟨rfl, rfl⟩))
    | jumpRegister r => exact .inr (.inl ⟨r, rfl⟩)
    | popRegister r | store r | setInt r | setString r | param r =>
      cases r with
      | pc => exact .inr (.inr (.inr rfl))
      | _ => exact (hne rfl).elim
    | _ => exact (hne rfl).elim

/-- A guided instruction goes to an address in `B` if the return address is one. -/
theorem target_of_guided (hi : i.Guided B) (hrt : B m.registers.rt.toInt)
    (h : m.target? i = some target) : B target.toInt := by
  obtain hbranch | ⟨r, hregister⟩ | ⟨-, rfl⟩ | hpc := target_cases h
  · exact hi.branch target hbranch
  · exact absurd hregister (hi.register r)
  · exact hrt
  · exact absurd hpc hi.ne_pc

end Machine

namespace Machine

/-- The program counter and the return address are in `B`. -/
structure Guided (B : Int → Prop) (m : Machine) : Prop where
  pc : B m.registers.pc.toInt
  rt : B m.registers.rt.toInt

end Machine

namespace Action

variable {m : Machine} {i : Instruction}

/-- The return address stays, or becomes the program counter. -/
theorem wp_execute_rt (hdest : i.destination? ≠ some .rt) :
    wp (execute i)
      (fun _ m' => m'.registers.rt = m.registers.rt ∨ m'.registers.rt = m.registers.pc)
      (fun _ m' => m'.registers.rt = m.registers.rt) m := by
  by_cases hcall : ∃ target, i = .call target
  · obtain ⟨target, rfl⟩ := hcall
    unfold execute call
    rw [wp_bind, wp_bind, wp_checkTarget]
    exact ⟨fun _ => .inr rfl, fun _ => rfl⟩
  · have hkeeps := keepsRegister_execute (v := .int m.registers.rt) (by decide) hdest
      (fun _ => by decide) (fun target h => hcall ⟨target, h⟩) m rfl
    refine hkeeps.mono (fun _ _ hm => .inl (Value.int.inj hm)) ?_
    rintro t m' ⟨-, hm⟩
    exact Value.int.inj hm

/-- A guided instruction moves the program counter and the return address within
    `B`. -/
theorem keepsGuided_execute {B : Int → Prop} (hi : i.Guided B) :
    Keeps (Machine.Guided B) (fun _ => True) (execute i) := by
  intro m hm
  have hmove {pc rt : Int64} {target : Option Int64} (htarget : m.target? i = target)
      (hpc : pc = target.getD m.registers.pc)
      (hrt : rt = m.registers.rt ∨ rt = m.registers.pc) : B pc.toInt ∧ B rt.toInt := by
    constructor
    · rw [hpc]
      cases target with
      | none => exact hm.pc
      | some t => exact Machine.target_of_guided hi hm.rt htarget
    · obtain rfl | rfl := hrt
      · exact hm.rt
      · exact hm.pc
  refine ((goesTo_execute i).and (wp_execute_rt hi.ne_rt)).mono ?_ ?_
  · rintro code m' ⟨hpc, hrt⟩
    obtain ⟨hpc, hrt⟩ := hmove rfl hpc hrt
    exact ⟨hpc, hrt⟩
  · rintro t m' ⟨⟨hpc, htarget⟩, hrt⟩
    obtain ⟨hpc, hrt⟩ := hmove htarget hpc (.inl hrt)
    exact ⟨trivial, hpc, hrt⟩

end Action

/-! ## Steps -/

namespace Machine

variable {program : Bytes} {capacity : Nat} {m : Machine} {entries : List Entry}

/-- A program that is made of instructions. -/
structure Composed (program : Bytes) (entries : List Entry) : Prop where
  tiles : Listing.Tiles 0 entries program.length
  forms : ∀ e ∈ entries, e.WellFormed
  program_eq : program = entries.flatMap Entry.encode

/-- All of the instructions are guided to the boundaries of the program. -/
structure Charted (program : Bytes) (entries : List Entry) : Prop
    extends Composed program entries where
  guided : ∀ e ∈ entries, ∀ i : Instruction, i.opcode = e.opcode → i.operands = e.operands →
    i.Guided (Listing.Boundary entries program.length)

section Steps

variable (hsize : program.length < 2 ^ 63)
include hsize

/-- At a boundary there is an instruction up to the next boundary, or the program
    ends. -/
theorem Ready.decode_of_composed (hcomposed : Composed program entries)
    (hm : m.Ready program capacity)
    (hpc : Listing.Boundary entries program.length m.registers.pc.toInt) :
    (∃ e ∈ entries, m.registers.pc.toInt = e.offset ∧ ∃ i pc,
      Fetch.decode m.memory m.registers.pc = .ok i pc ∧
      i.opcode = e.opcode ∧ i.operands = e.operands ∧ m.registers.pc.toInt < pc.toInt ∧
      Listing.Boundary entries program.length pc.toInt) ∨
    (m.registers.pc.toInt = program.length ∧ ∃ pc,
      Fetch.decode m.memory m.registers.pc = .error (.unexpectedEnd program.length) pc ∧
      pc.toInt = program.length) := by
  obtain hend | ⟨e, he, hoffset⟩ := hpc
  · have hread : Entry.read? ⟨program.length, program.drop program.length⟩ =
        .error (.unexpectedEnd program.length) := by
      rw [List.drop_length]
      rfl
    have hagree := hm.agree_decode hsize hend
    rw [hread] at hagree
    match hdecoded : Fetch.decode m.memory m.registers.pc, hagree with
    | .error _ pc, ⟨rfl, _, hstop⟩ =>
      rw [hm.code_size] at hstop
      exact .inr ⟨hend, pc, rfl, hstop⟩
  · obtain ⟨next, hread, hnext⟩ := hcomposed.tiles.read?_of_mem hcomposed.forms he
    rw [← hcomposed.program_eq] at hread
    have hagree := hm.agree_decode hsize hoffset
    rw [hread] at hagree
    match hdecoded : Fetch.decode m.memory m.registers.pc, hagree with
    | .ok i pc, ⟨⟨_, hopcode, hoperands⟩, hlow, hreach, hplace⟩ =>
      rw [hplace, Fetch.cast_placeAt_offset hreach] at hnext
      refine .inl ⟨e, he, hoffset, i, pc, rfl, hopcode.symm, hoperands.symm, ?_, hnext⟩
      omega

variable (hcharted : Charted program entries)
include hcharted

/-- At a boundary there is a guided instruction up to the next boundary, or the
    program ends. -/
theorem Ready.decode_of_boundary (hm : m.Ready program capacity)
    (hpc : Listing.Boundary entries program.length m.registers.pc.toInt) :
    (∃ i pc, Fetch.decode m.memory m.registers.pc = .ok i pc ∧
      i.Guided (Listing.Boundary entries program.length) ∧
      Listing.Boundary entries program.length pc.toInt) ∨
    (m.registers.pc.toInt = program.length ∧ ∃ pc,
      Fetch.decode m.memory m.registers.pc = .error (.unexpectedEnd program.length) pc ∧
      pc.toInt = program.length) := by
  refine (hm.decode_of_composed hsize hcharted.toComposed hpc).imp ?_ id
  rintro ⟨e, he, -, i, pc, hdecoded, hopcode, hoperands, -, hnext⟩
  exact ⟨i, pc, hdecoded, hcharted.guided e he i hopcode hoperands, hnext⟩

variable (hcap : capacity < 2 ^ 63)
include hcap

theorem Ready.guided_step (hm : m.Ready program capacity) (hgo : m.terminating = false)
    (h : m.Guided (Listing.Boundary entries program.length)) :
    (leftBy m.step).Guided (Listing.Boundary entries program.length) ∧
      ∀ e m', m.step = .error e m' → e = .malformed (.unexpectedEnd program.length) ∧
        m.registers.pc.toInt = program.length := by
  have hcycles := hm.cycles hsize hcap hgo
  obtain ⟨i, pc, hdecoded, hi, hpc⟩ | ⟨hend, pc, hdecoded, hpc⟩ :=
    hm.decode_of_boundary hsize hcharted h.pc
  · have hkeeps (journal : Journal) :=
      Action.keepsGuided_execute hi (m.goTo pc journal) ⟨hpc, h.rt⟩
    generalize m.step = r at hcycles
    cases hcycles with
    | malformed decoded => cases hdecoded.symm.trans decoded
    | halted decoded executed =>
      cases hdecoded.symm.trans decoded
      have hm' := (hkeeps _).of_eq_ok executed
      exact ⟨⟨hm'.pc, hm'.rt⟩, fun _ _ h => nomatch h⟩
    | ran decoded executed =>
      cases hdecoded.symm.trans decoded
      exact ⟨(hkeeps _).of_eq_ok executed, fun _ _ h => nomatch h⟩
    | faulted decoded executed =>
      cases hdecoded.symm.trans decoded
      obtain ⟨-, hm'⟩ := (hkeeps _).of_eq_error executed
      exact ⟨⟨hm'.pc, hm'.rt⟩, fun _ _ h => nomatch h⟩
  · generalize m.step = r at hcycles
    cases hcycles with
    | malformed decoded =>
      cases hdecoded.symm.trans decoded
      refine ⟨⟨.inl hpc, h.rt⟩, fun e m' hstep => ?_⟩
      cases hstep
      exact ⟨rfl, hend⟩
    | halted decoded | ran decoded | faulted decoded => cases hdecoded.symm.trans decoded

theorem Bounded.guided_step (hm : m.Bounded program capacity)
    (h : m.Guided (Listing.Boundary entries program.length)) :
    (leftBy m.step).Guided (Listing.Boundary entries program.length) ∧
      ∀ e m', m.step = .error e m' → e = .malformed (.unexpectedEnd program.length) ∧
        m.registers.pc.toInt = program.length := by
  obtain ⟨code, hexit⟩ | ⟨hexit, f, hfault⟩ | ⟨hexit, hfault, hterm⟩ | ⟨hready, hgo⟩ := hm.cases
  · rw [step_of_exitCode hexit]
    exact ⟨h, fun _ _ h => nomatch h⟩
  · rw [step_of_fault hexit hfault]
    exact ⟨h, fun _ _ h => nomatch h⟩
  · rw [step_of_terminating hexit hfault hterm]
    exact ⟨⟨h.pc, h.rt⟩, fun _ _ h => nomatch h⟩
  · exact hready.guided_step hsize hcharted hcap hgo h

end Steps

/-- All reachable states of a charted program are at its boundaries. -/
theorem Reachable.guided {config : Config} (hsize : program.length < 2 ^ 63)
    (hstack : config.stackSize < 2 ^ 63) (hcharted : Charted program entries)
    (h : Reachable program config m) :
    m.Bounded program config.stackSize ∧
      m.Guided (Listing.Boundary entries program.length) := by
  refine h.invariant (P := fun m => m.Bounded program config.stackSize ∧
    m.Guided (Listing.Boundary entries program.length)) ?_ ?_ ?_
  · rintro m ⟨hm, hguided⟩
    exact ⟨(hm.secure_step hsize hstack).leftBy,
      (hm.guided_step hsize hcharted hstack hguided).1⟩
  · rintro m m' ⟨hm, hguided⟩ hmemory hregisters hfault hexit
    refine ⟨⟨hm.toInBounds.of_eq hmemory ?_ ?_, ?_⟩, ⟨?_, ?_⟩⟩
    · rw [hregisters]
    · rw [hregisters]
    · rw [hfault, hexit]
      exact hm.ended
    · rw [hregisters]
      exact hguided.pc
    · rw [hregisters]
      exact hguided.rt
  · have hzero : Listing.Boundary entries program.length (0 : Nat) := hcharted.tiles.boundary_start
    exact ⟨(ready_ofProgram program config).bounded, ⟨hzero, hzero⟩⟩

end Machine

/-! ## Sources that jump to labels -/

/-- The opcodes that go to the address they are given. -/
def Opcode.branches : Opcode → Bool
  | jump | jumpPositive | jumpNegative | jumpZero | jumpNonzero | call
  | jumpGreater | jumpLess | jumpEqual | jumpUnequal => true
  | _ => false

/-- The opcodes that write the register which is their first operand. -/
def Opcode.writes : Opcode → Bool
  | popRegister | store | setInt | setString | param => true
  | _ => false

def Argument.isReference : Argument → Bool
  | reference _ => true
  | operand _ => false

/-- A statement that branches to a label only, jumps to no register and writes
    neither the program counter nor the return address. -/
structure Statement.LabelStructured (s : Statement) : Prop where
  branch : s.opcode.branches = true → ∀ argument ∈ s.arguments, argument.isReference = true
  ne_jumpRegister : s.opcode ≠ .jumpRegister
  ne_pc : s.opcode.writes = true → s.arguments.head? ≠ some (.operand (.register .pc))
  ne_rt : s.opcode.writes = true → s.arguments.head? ≠ some (.operand (.register .rt))

instance (s : Statement) : Decidable s.LabelStructured :=
  decidable_of_iff
    ((s.opcode.branches = true → ∀ argument ∈ s.arguments, argument.isReference = true) ∧
      s.opcode ≠ .jumpRegister ∧
      (s.opcode.writes = true → s.arguments.head? ≠ some (.operand (.register .pc))) ∧
      (s.opcode.writes = true → s.arguments.head? ≠ some (.operand (.register .rt))))
    ⟨fun ⟨branch, register, pc, rt⟩ => ⟨branch, register, pc, rt⟩,
      fun h => ⟨h.branch, h.ne_jumpRegister, h.ne_pc, h.ne_rt⟩⟩

namespace Instruction

variable {i : Instruction}

theorem branches_of_branch? {target : Int64} (h : i.branch? = some target) :
    i.opcode.branches = true ∧ i.operands = [.integer target.toInt] := by
  cases i with
  | jump | call =>
    cases h
    exact ⟨rfl, rfl⟩
  | jumpTop c | jumpFlag c =>
    cases h
    cases c <;> exact ⟨rfl, rfl⟩
  | _ => cases h

theorem writes_of_destination? {r : Register} (h : i.destination? = some r) :
    i.opcode.writes = true ∧ i.operands.head? = some (.register r) := by
  cases i with
  | popRegister | store | setInt | setString | param =>
    cases h
    exact ⟨rfl, rfl⟩
  | _ => cases h

end Instruction

namespace Statement.Links

variable {labels : Labels} {s : Statement} {e : Entry} {i : Instruction}

/-- If the instruction has a destination, the statement names it first. -/
theorem writes_of_destination? (h : s.Links labels e) (hopcode : i.opcode = e.opcode)
    (hoperands : i.operands = e.operands) {r : Register} (hr : i.destination? = some r) :
    s.opcode.writes = true ∧ s.arguments.head? = some (.operand (.register r)) := by
  obtain ⟨hwrites, hhead⟩ := Instruction.writes_of_destination? hr
  have hstands := h.operands
  rw [← hoperands] at hstands
  rw [hopcode, h.opcode] at hwrites
  refine ⟨hwrites, ?_⟩
  generalize s.arguments = arguments at hstands ⊢
  generalize i.operands = operands at hhead hstands
  cases hstands with
  | nil => cases hhead
  | cons hfirst _ =>
    cases hhead
    cases hfirst
    rfl

/-- If the instruction branches, an argument of the statement stands for the address. -/
theorem branches_of_branch? (h : s.Links labels e) (hopcode : i.opcode = e.opcode)
    (hoperands : i.operands = e.operands) {target : Int64} (htarget : i.branch? = some target) :
    s.opcode.branches = true ∧ ∃ argument ∈ s.arguments,
      Argument.Stands labels argument (.integer target.toInt) := by
  obtain ⟨hbranches, hinteger⟩ := Instruction.branches_of_branch? htarget
  have hstands := h.operands
  rw [← hoperands, hinteger] at hstands
  rw [hopcode, h.opcode] at hbranches
  exact ⟨hbranches, exists_of_forall₂ hstands.flip (List.mem_singleton_self _)⟩

end Statement.Links

namespace Assembly

variable {source : Text} {program : Bytes} {a : Assembly} {statements : List Statement}
  {entries : List Entry}

/-- The instruction that a label-structured statement stands for is guided. -/
theorem Assembled.guided (h : Assembled source program a statements entries) {s : Statement}
    {e : Entry} (hlinks : s.Links a.labels e) (hs : s.LabelStructured) {i : Instruction}
    (hopcode : i.opcode = e.opcode) (hoperands : i.operands = e.operands) :
    i.Guided (Listing.Boundary entries program.length) := by
  constructor
  · intro target htarget
    obtain ⟨hbranches, argument, hargument, hstands⟩ :=
      hlinks.branches_of_branch? hopcode hoperands htarget
    have hreference := hs.branch hbranches argument hargument
    generalize target.toInt = v at hstands
    cases hstands with
    | operand => cases hreference
    | @reference name address found _ =>
      have hdefines := (lookup_iff_defines h.accepted name address).1 found
      obtain rfl | ⟨e, he, rfl⟩ := h.defines_mem hdefines
      · exact .inl rfl
      · exact .inr ⟨e, he, rfl⟩
  · rintro r rfl
    exact hs.ne_jumpRegister (hlinks.opcode.symm.trans hopcode.symm)
  · intro hpc
    obtain ⟨hwrites, hhead⟩ := hlinks.writes_of_destination? hopcode hoperands hpc
    exact hs.ne_pc hwrites hhead
  · intro hrt
    obtain ⟨hwrites, hhead⟩ := hlinks.writes_of_destination? hopcode hoperands hrt
    exact hs.ne_rt hwrites hhead

theorem Assembled.composed (h : Assembled source program a statements entries) :
    Machine.Composed program entries where
  tiles := Listing.tiles_entries? h.entries?_eq
  forms := h.shows.wellFormed
  program_eq := h.program_eq

theorem Assembled.charted (h : Assembled source program a statements entries)
    (hstructured : ∀ s ∈ statements, s.LabelStructured) : Machine.Charted program entries where
  toComposed := h.composed
  guided := by
    intro e he i hopcode hoperands
    obtain ⟨s, hs, hlinks⟩ := exists_of_forall₂ h.links.flip he
    exact h.guided hlinks (hstructured s hs) hopcode hoperands

/-- If every jump and call of a source is to a label, no jump is to a register
    and no instruction has the program counter or the return address as its
    destination, then in every reachable state the program counter is the offset
    of an instruction of the source, whose opcode is there, or the end of the
    program. A step can end in a malformation only at the end, and only in the one
    that the program has ended. -/
theorem labelStructured_at_boundary {config : Config} {m : Machine}
    (h : assemble source = .ok program) (hsource : ofSource source = .ok () a)
    (hstructured : ∀ s ∈ a.statements, s.LabelStructured) (hsize : program.length < 2 ^ 63)
    (hstack : config.stackSize < 2 ^ 63) (hm : Machine.Reachable program config m) :
    (m.registers.pc.toInt = program.length ∨ ∃ s ∈ a.statements,
      m.registers.pc.toInt = s.offset ∧ program[s.offset]? = some s.opcode.byte) ∧
    ∀ e m', m.step = .error e m' → e = .malformed (.unexpectedEnd program.length) ∧
      m.registers.pc.toInt = program.length := by
  obtain ⟨a', entries, hassembled⟩ := assembled_statements h
  cases hsource.symm.trans hassembled.accepted
  have hcharted := hassembled.charted fun s hs => hstructured s (Array.mem_toList_iff.1 hs)
  obtain ⟨hbounded, hguided⟩ := hm.guided hsize hstack hcharted
  refine ⟨?_, (hbounded.guided_step hsize hcharted hstack hguided).2⟩
  obtain hend | ⟨e, he, hoffset⟩ := hguided.pc
  · exact .inl hend
  · obtain ⟨s, hs, hlinks⟩ := exists_of_forall₂ hassembled.links.flip he
    refine .inr ⟨s, Array.mem_toList_iff.1 hs, ?_, ?_⟩
    · rw [hoffset, hlinks.offset]
    · rw [← hlinks.offset, ← hlinks.opcode, hcharted.program_eq]
      exact hcharted.tiles.getElem?_offset he

/-- A call whose subroutine is the last instruction: the program runs off its end. -/
theorem labelStructured_at_boundary_at_end :
    let source := "CALL %last\nlast: PUSHREG $RT\n".toList
    let program : Bytes := [26, 18, 0, 0, 0, 0, 0, 0, 0, 3, 13]
    let m := ((Machine.ofProgram program { stackSize := 2 }).after .step).after .step
    assemble source = .ok program ∧ m.registers.pc.toInt = 11 ∧
      ∀ e m', m.step = .error e m' → e = .malformed (.unexpectedEnd 11) := by
  intro source program m
  have h : assemble source = .ok program := by decide +kernel
  have hstructured : ∀ s ∈ (match ofSource source with | .ok _ a | .error _ a => a.statements),
      s.LabelStructured := by decide +kernel
  obtain ⟨a, _, hassembled⟩ := assembled_statements h
  rw [hassembled.accepted] at hstructured
  have hm : Machine.Reachable program { stackSize := 2 } m := .after _ (.after _ .fresh)
  obtain ⟨-, hend⟩ := labelStructured_at_boundary h hassembled.accepted hstructured (by decide)
    (by decide) hm
  exact ⟨h, by decide, fun e m' hstep => (hend e m' hstep).1⟩

end Assembly

end StackMachine
