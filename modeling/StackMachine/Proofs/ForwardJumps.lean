-- SUMMARY: A program that jumps forward only ends after as many steps as it has instructions, and one more.
import StackMachine.Proofs.Boundaries
import StackMachine.Proofs.Increments
import StackMachine.Proofs.Surroundings

/-!
# Forward jumps

If a source jumps and calls only to labels that later lines define, never returns and
never writes the program counter by hand, each instruction that a machine executes
leaves the program counter on a boundary behind it: at the next instruction, at a label
further on, or at the end. The instructions from the program counter on get fewer with
each step, so a run ends, whatever happens around it.
-/

namespace StackMachine

/-! ## Instructions that go forward -/

namespace Instruction

/-- If the instruction goes elsewhere, then to an address in `B` that it names. -/
structure Onward (B : Int → Prop) (i : Instruction) : Prop where
  branch : ∀ target, i.branch? = some target → B target.toInt
  register : ∀ r, i ≠ jumpRegister r
  ne_ret : i ≠ ret
  ne_pc : i.destination? ≠ some .pc

end Instruction

namespace Action

variable {m : Machine} {i : Instruction} {B : Int → Prop}

/-- An onward instruction leaves the program counter where it is or moves it into `B`. -/
theorem wp_execute_pc_of_onward (hi : i.Onward B) (hpc : B m.registers.pc.toInt) :
    wp (execute i) (fun _ m' => B m'.registers.pc.toInt) (fun _ m' => B m'.registers.pc.toInt)
      m := by
  have htarget {target : Int64} (h : m.target? i = some target) : B target.toInt := by
    obtain hbranch | ⟨r, hregister⟩ | ⟨hret, -⟩ | hdest := Machine.target_cases h
    · exact hi.branch target hbranch
    · exact absurd hregister (hi.register r)
    · exact absurd hret hi.ne_ret
    · exact absurd hdest hi.ne_pc
  refine (goesTo_execute i).mono (fun _ m' hm' => ?_) fun _ m' hm' => ?_
  · rw [hm']
    cases h : m.target? i with
    | none => exact hpc
    | some target => exact htarget h
  · rw [hm'.1]
    exact hpc

end Action

/-! ## Steps -/

namespace Machine

variable {program : Bytes} {capacity : Nat} {m : Machine} {entries : List Entry} {offset : Nat}

/-- The addresses behind an offset that are boundaries of the program. -/
def Ahead (entries : List Entry) (stop offset : Nat) (address : Int) : Prop :=
  (offset : Int) < address ∧ Listing.Boundary entries stop address

/-- A program that is made of instructions, all of which go forward. -/
structure Descending (program : Bytes) (entries : List Entry) : Prop
    extends Composed program entries where
  onward : ∀ e ∈ entries, ∀ i : Instruction, i.opcode = e.opcode → i.operands = e.operands →
    i.Onward (Ahead entries program.length e.offset)

/-- The number of instructions at the address and behind it. -/
def remaining (entries : List Entry) (address : Int) : Nat :=
  entries.countP fun e => address ≤ e.offset

/-- Going on from an instruction leaves one less. -/
theorem remaining_lt {e : Entry} {address : Int} (he : e ∈ entries) (hlt : e.offset < address) :
    remaining entries address < remaining entries e.offset := by
  obtain ⟨before, after, rfl⟩ := List.append_of_mem he
  have hmono (es : List Entry) : remaining es address ≤ remaining es e.offset := by
    refine List.countP_mono_left fun e' _ h => ?_
    simp only [decide_eq_true_eq] at h ⊢
    omega
  have hbefore := hmono before
  have hafter := hmono after
  unfold remaining at *
  simp only [List.countP_append, List.countP_cons, le_refl, decide_true, if_true,
    Int.not_le.2 hlt, decide_false, Bool.false_eq_true, if_false]
  omega

section Steps

variable (hsize : program.length < 2 ^ 63) (hcap : capacity < 2 ^ 63)
  (hdescending : Descending program entries)
include hsize hcap hdescending

/-- A step from a boundary executes the instruction there and goes on to a boundary
    behind it, or it does not leave the machine running, nor move it. -/
theorem Bounded.step_onward (hm : m.Bounded program capacity)
    (hpc : Listing.Boundary entries program.length m.registers.pc.toInt) :
    (m.executed? = none ∧ (m.after .step).registers.pc.toInt = m.registers.pc.toInt ∧
      ∀ m', m.step ≠ .ok .running m') ∨
    ∃ e ∈ entries, m.registers.pc.toInt = e.offset ∧ m.executed? = some (e.offset : Int) ∧
      Ahead entries program.length e.offset (m.after .step).registers.pc.toInt := by
  have hnone (h : m.isGoing = false) : m.executed? = none := by simp [executed?, h]
  have hafter : m.after .step = leftBy m.step := rfl
  rw [hafter]
  obtain ⟨code, hexit⟩ | ⟨hexit, f, hfault⟩ | ⟨hexit, hfault, hterm⟩ | ⟨hready, hgo⟩ := hm.cases
  · rw [step_of_exitCode hexit]
    exact .inl ⟨hnone (by simp [isGoing, hexit]), rfl, by simp⟩
  · rw [step_of_fault hexit hfault]
    exact .inl ⟨hnone (by simp [isGoing, hfault]), rfl, by simp⟩
  · rw [step_of_terminating hexit hfault hterm]
    exact .inl ⟨hnone (by simp [isGoing, hterm]), rfl, by simp⟩
  have hcycles := hready.cycles hsize hcap hgo
  obtain ⟨e, he, hoffset, i, pc, hdecoded, hopcode, hoperands, hlt, hnext⟩ |
      ⟨hend, pc, hdecoded, hstop⟩ :=
    hready.decode_of_composed hsize hdescending.toComposed hpc
  · have hexecuted : m.executed? = some (e.offset : Int) :=
      executed?_eq_some_iff.2 ⟨⟨i, hready.fault, hready.exitCode, hgo, pc, hdecoded⟩, hoffset⟩
    refine .inr ⟨e, he, hoffset, hexecuted, ?_⟩
    rw [hoffset] at hlt
    obtain ⟨journal, hstep⟩ := hcycles.of_decode_eq_ok hdecoded
    have hwp := Action.wp_execute_pc_of_onward (m := m.goTo pc journal)
      (hdescending.onward e he i hopcode hoperands) ⟨hlt, hnext⟩
    unfold Action.wp at hwp
    generalize Action.execute i (m.goTo pc journal) = x at hstep hwp
    generalize m.step = r at hstep
    cases hstep <;> exact hwp
  -- At the end there is nothing to decode, and the program counter stays there.
  · have hexecuted : m.executed? = none := by simp [executed?, hdecoded]
    obtain ⟨journal, hstep⟩ := hcycles.of_decode_eq_error hdecoded
    rw [hstep]
    exact .inl ⟨hexecuted, hstop.trans hend.symm, by simp⟩

/-! ## Runs -/

/-- In as many surroundings as there are instructions left, and one more, a run returns. -/
theorem Bounded.runAmid_returns {surroundings : List Surroundings}
    (hm : m.Bounded program capacity)
    (hpc : Listing.Boundary entries program.length m.registers.pc.toInt)
    (hlength : remaining entries m.registers.pc.toInt < surroundings.length) :
    ∃ r, m.runAmid surroundings = outcome r := by
  induction surroundings generalizing m with
  | nil => exact absurd hlength (Nat.not_lt_zero _)
  | cons s rest ih =>
    obtain ⟨r, hreturns⟩ | ⟨hrunning, hstep⟩ := run_one_cases (m.amid s)
    · exact ⟨r, runAmid_cons_of_outcome hreturns⟩
    rw [runAmid_cons_of_running hrunning]
    obtain ⟨-, -, hstops⟩ | ⟨e, he, hoffset, -, hlt, hnext⟩ :=
      (hm.amid s).step_onward hsize hcap hdescending hpc
    · exact absurd hstep (hstops _)
    -- Fewer instructions are left, and so are fewer surroundings.
    · refine ih ((hm.amid s).after hsize hcap .step) hnext ?_
      have hfewer := remaining_lt he hlt
      change m.registers.pc.toInt = _ at hoffset
      rw [hoffset, List.length_cons] at hlength
      omega

/-- The offsets of the instructions that are executed increase, from that of the first
    instruction that may be. -/
theorem Bounded.offsetsAmid_increase (surroundings : List Surroundings)
    (hm : m.Bounded program capacity)
    (hpc : Listing.Boundary entries program.length m.registers.pc.toInt) :
    (m.offsetsAmid surroundings).Pairwise (· < ·) ∧
    ∀ offset ∈ m.offsetsAmid surroundings, m.registers.pc.toInt ≤ offset ∧
      ∃ e ∈ entries, offset = e.offset := by
  induction surroundings generalizing m with
  | nil => exact ⟨.nil, nofun⟩
  | cons s rest ih =>
    have hm' := (hm.amid s).after hsize hcap .step
    rw [offsetsAmid]
    obtain ⟨hnone, hstays, -⟩ | ⟨e, he, hoffset, hsome, hlt, hnext⟩ :=
      (hm.amid s).step_onward hsize hcap hdescending hpc
    · obtain ⟨hincrease, hlow⟩ := ih hm' (hstays ▸ hpc)
      rw [hnone, Option.toList_none, List.nil_append]
      exact ⟨hincrease, fun o ho => ⟨hstays ▸ (hlow o ho).1, (hlow o ho).2⟩⟩
    · obtain ⟨hincrease, hlow⟩ := ih hm' hnext
      change m.registers.pc.toInt = _ at hoffset
      rw [hsome, Option.toList_some, List.singleton_append, hoffset]
      refine ⟨List.pairwise_cons.2 ⟨fun o ho => ?_, hincrease⟩, fun o ho => ?_⟩
      · exact Int.lt_of_lt_of_le hlt (hlow o ho).1
      · obtain rfl | ho := List.mem_cons.1 ho
        · exact ⟨Int.le_refl _, e, he, rfl⟩
        · exact ⟨Int.le_of_lt (Int.lt_of_lt_of_le hlt (hlow o ho).1), (hlow o ho).2⟩

end Steps

end Machine

/-! ## Sources that jump forward -/

namespace Assembly

/-- The labels that lines of the source behind its `n`-th one define. -/
def labelsBehind (source : Text) (n : Nat) : List Text :=
  ((Text.lines source).drop n).flatMap fun line => (SourceLine.parse line).labels

end Assembly

/-- The label that an argument refers to. -/
def Argument.label? : Argument → Option Text
  | reference name => some name
  | operand _ => none

/-- A statement of the source that branches only to labels which a later line defines,
    neither jumps to a register nor returns, and does not write the program counter. -/
structure Statement.JumpsForward (source : Text) (s : Statement) : Prop where
  branch : s.opcode.branches = true → ∀ argument ∈ s.arguments,
    ∃ name ∈ argument.label?, name ∈ Assembly.labelsBehind source s.line
  ne_jumpRegister : s.opcode ≠ .jumpRegister
  ne_ret : s.opcode ≠ .ret
  ne_pc : s.opcode.writes = true → s.arguments.head? ≠ some (.operand (.register .pc))

instance (source : Text) (s : Statement) : Decidable (s.JumpsForward source) :=
  decidable_of_iff
    ((s.opcode.branches = true → ∀ argument ∈ s.arguments,
        ∃ name ∈ argument.label?, name ∈ Assembly.labelsBehind source s.line) ∧
      s.opcode ≠ .jumpRegister ∧ s.opcode ≠ .ret ∧
      (s.opcode.writes = true → s.arguments.head? ≠ some (.operand (.register .pc))))
    ⟨fun ⟨branch, register, ret, pc⟩ => ⟨branch, register, ret, pc⟩,
      fun h => ⟨h.branch, h.ne_jumpRegister, h.ne_ret, h.ne_pc⟩⟩

namespace Assembly

variable {source : Text} {program : Bytes} {a : Assembly} {entries : List Entry}
  {statements : List Statement} {lines : List Text} {s : Statement}

theorem size_le_afterAll (a : Assembly) (lines : List Text) : a.size ≤ (a.afterAll lines).size := by
  induction lines generalizing a with
  | nil => exact Nat.le_refl _
  | cons line lines ih => exact Nat.le_trans (grows_after line a).size (ih _)

/-- After the line of a statement the assembly ends behind its offset. -/
theorem offset_lt_of_mem_statements (hs : s ∈ (empty.afterAll lines).statements.toList) :
    s.line ≤ lines.length ∧ s.offset < (empty.afterAll (lines.take s.line)).size := by
  induction lines using List.reverseRecOn with
  | nil => cases hs
  | append_singleton lines line ih =>
    have hearlier (hs : s ∈ (empty.afterAll lines).statements.toList) :
        s.line ≤ (lines ++ [line]).length ∧
          s.offset < (empty.afterAll ((lines ++ [line]).take s.line)).size := by
      obtain ⟨hle, hlt⟩ := ih hs
      rw [List.take_append_of_le_length hle, List.length_append]
      exact ⟨Nat.le_add_right_of_le hle, hlt⟩
    rw [afterAll_concat] at hs
    obtain ⟨b, htaken, hpushes⟩ := after_adds line (empty.afterAll lines)
    obtain ⟨hline, hstatements, hsize, -⟩ := forM_define_eq_ok htaken
    have hnext : b.line = lines.length + 1 := by
      rw [hline]
      exact congrArg (· + 1) (line_afterAll lines)
    obtain heq | ⟨new, hnew, hoffset, heq⟩ := hpushes
    · rw [heq, hstatements] at hs
      exact hearlier hs
    · rw [heq, push, Array.toList_push, hstatements, List.mem_append, List.mem_singleton] at hs
      obtain hs | rfl := hs
      · exact hearlier hs
      · have htake : (lines ++ [line]).take s.line = lines ++ [line] :=
          List.take_of_length_le (by simp [hnew, hnext])
        rw [htake, afterAll_concat, heq, push, hoffset]
        refine ⟨by simp [hnew, hnext], ?_⟩
        exact Nat.lt_add_of_pos_right (Nat.succ_pos _)

/-- A label that a line behind a statement defines stands for an address behind it. -/
theorem Assembled.offset_lt_of_mem_labelsBehind (h : Assembled source program a statements entries)
    (hs : s ∈ a.statements.toList) {name : Text} {address : Nat}
    (hname : name ∈ labelsBehind source s.line) (hfound : a.labels.lookup name = some address) :
    s.offset < address := by
  have hall : empty.afterAll (Text.lines source) = a := afterAll_of_forM h.accepted
  rw [← hall] at hs
  obtain ⟨-, hlt⟩ := offset_lt_of_mem_statements hs
  obtain ⟨line, hline, hname⟩ := List.mem_flatMap.1 hname
  obtain ⟨between, rest, hdrop⟩ := List.append_of_mem hline
  have hsplit : Text.lines source =
      ((Text.lines source).take s.line ++ between) ++ line :: rest := by
    rw [List.append_assoc, ← hdrop, List.take_append_drop]
  have haccepted := h.accepted
  rw [ofSource, hsplit] at haccepted
  obtain ⟨b, hbefore, -⟩ := forM_append_eq_ok.1 haccepted
  have hb : address = b.size := by
    have hdefines : Defines source name b.bytes.length :=
      ⟨line, b, meets_iff.2 ⟨_, rest, hsplit, hbefore⟩, hname, rfl⟩
    rw [← lookup_iff_defines h.accepted, hfound, Option.some.injEq] at hdefines
    rw [hdefines, ← sized_empty.of_forM hbefore]
  have hgrows := size_le_afterAll (empty.afterAll ((Text.lines source).take s.line)) between
  have hreached : (empty.afterAll ((Text.lines source).take s.line)).afterAll between = b := by
    rw [← afterAll_of_forM hbefore, afterAll, afterAll, afterAll, List.foldl_append]
  rw [hreached, ← hb] at hgrows
  exact Nat.lt_of_lt_of_le hlt hgrows

/-- The instruction that such a statement stands for goes forward. -/
theorem Assembled.onward (h : Assembled source program a a.statements.toList entries)
    (hs : s ∈ a.statements.toList) {e : Entry} (hlinks : s.Links a.labels e)
    (hforward : s.JumpsForward source) {i : Instruction} (hopcode : i.opcode = e.opcode)
    (hoperands : i.operands = e.operands) :
    i.Onward (Machine.Ahead entries program.length e.offset) := by
  have hop : i.opcode = s.opcode := hopcode.trans hlinks.opcode
  constructor
  · intro target htarget
    obtain ⟨hbranches, argument, hargument, hstands⟩ :=
      hlinks.branches_of_branch? hopcode hoperands htarget
    obtain ⟨name, hlabel, hbehind⟩ := hforward.branch hbranches argument hargument
    generalize target.toInt = v at hstands
    cases hstands with
    | operand => cases hlabel
    | @reference _ address found _ =>
      cases hlabel
      have hlt := h.offset_lt_of_mem_labelsBehind hs hbehind found
      rw [← hlinks.offset] at hlt
      have hdefines := (lookup_iff_defines h.accepted name address).1 found
      refine ⟨Int.ofNat_lt.2 hlt, ?_⟩
      obtain rfl | ⟨e', he', rfl⟩ := h.defines_mem hdefines
      · exact .inl rfl
      · exact .inr ⟨e', he', rfl⟩
  · rintro r rfl
    exact hforward.ne_jumpRegister hop.symm
  · rintro rfl
    exact hforward.ne_ret hop.symm
  · intro hpc
    obtain ⟨hwrites, hhead⟩ := hlinks.writes_of_destination? hopcode hoperands hpc
    exact hforward.ne_pc hwrites hhead

theorem Assembled.descending (h : Assembled source program a a.statements.toList entries)
    (hforward : ∀ s ∈ a.statements, s.JumpsForward source) :
    Machine.Descending program entries where
  toComposed := h.composed
  onward := by
    intro e he i hopcode hoperands
    obtain ⟨s, hs, hlinks⟩ := exists_of_forall₂ h.links.flip he
    exact h.onward hs hlinks (hforward s (Array.mem_toList_iff.1 hs)) hopcode hoperands

open Machine in
/-- If every jump and call of a source is to a label that a later line defines, no jump
    is to a register, there is no return and no instruction has the program counter as
    its destination, then a run of a fresh machine returns after as many steps as the
    source has instructions, and one more, whether or not the machine is asked to stop.
    It does so even if that request and the sink change between any two steps. The
    offsets of the instructions that are executed strictly increase, and are offsets of
    the source's instructions. -/
theorem forward_run_returns {config : Config} (h : assemble source = .ok program)
    (hsource : ofSource source = .ok () a)
    (hforward : ∀ s ∈ a.statements, s.JumpsForward source) (hsize : program.length < 2 ^ 63)
    (hstack : config.stackSize < 2 ^ 63) :
    let m := ofProgram program config
    (∀ on, ∃ r, run (a.statements.size + 1) { m with terminating := on } = outcome r) ∧
    (∀ surroundings : List Surroundings, a.statements.size < surroundings.length →
      ∃ r, m.runAmid surroundings = outcome r) ∧
    ∀ surroundings : List Surroundings,
      (m.offsetsAmid surroundings).Pairwise (· < ·) ∧
      ∀ offset ∈ m.offsetsAmid surroundings, ∃ s ∈ a.statements, offset = s.offset := by
  intro m
  obtain ⟨a', entries, hassembled⟩ := assembled_statements h
  cases hsource.symm.trans hassembled.accepted
  have hdescending := hassembled.descending hforward
  have hm : m.Bounded program config.stackSize := (ready_ofProgram program config).bounded
  have hpc : Listing.Boundary entries program.length m.registers.pc.toInt :=
    hdescending.tiles.boundary_start
  have hcount : remaining entries m.registers.pc.toInt ≤ a.statements.size := by
    rw [← Array.length_toList, hassembled.links.length_eq]
    exact List.countP_le_length
  refine ⟨fun on => ?_, fun surroundings hlength => ?_, fun surroundings => ?_⟩
  · have hon : ({ m with terminating := on } : Machine).Bounded program config.stackSize :=
      ⟨{ hm.toInBounds with }, hm.ended⟩
    obtain ⟨surroundings, hlength, hrun⟩ :=
      exists_runAmid_eq_run { m with terminating := on } (a.statements.size + 1)
    rw [← hrun]
    exact hon.runAmid_returns hsize hstack hdescending hpc
      (Nat.lt_of_le_of_lt hcount (hlength ▸ Nat.lt_succ_self _))
  · exact hm.runAmid_returns hsize hstack hdescending hpc (by omega)
  · obtain ⟨hincrease, hlow⟩ := hm.offsetsAmid_increase hsize hstack hdescending surroundings hpc
    refine ⟨hincrease, fun offset hoffset => ?_⟩
    obtain ⟨-, e, he, rfl⟩ := hlow offset hoffset
    obtain ⟨s, hs, hlinks⟩ := exists_of_forall₂ hassembled.links.flip he
    exact ⟨s, Array.mem_toList_iff.1 hs, by rw [hlinks.offset]⟩

/-- A call over a pop to the end of the program, which is a label: three steps would
    return in any surroundings, and the second of these asks to stop. -/
theorem forward_run_returns_after_call :
    let source := "CALL %end\nPOP\nend:\n".toList
    let program : Bytes := [26, 20, 0, 0, 0, 0, 0, 0, 0, 4]
    let m := Machine.ofProgram program { stackSize := 1 }
    let surroundings : List Surroundings :=
      [⟨false, .ofLimit none⟩, ⟨true, .ofLimit (some 0)⟩, ⟨false, .ofLimit none⟩]
    assemble source = .ok program ∧
    (∃ r, m.run 3 = Machine.outcome r) ∧ (∃ r, m.runAmid surroundings = Machine.outcome r) ∧
    m.offsetsAmid surroundings = [0] := by
  intro source program m surroundings
  have h : assemble source = .ok program := by decide +kernel
  have hforward : ∀ s ∈ (match ofSource source with | .ok _ a | .error _ a => a.statements),
      s.JumpsForward source := by decide +kernel
  have hsize : (match ofSource source with | .ok _ a | .error _ a => a.statements.size) = 2 := by
    decide +kernel
  obtain ⟨a, _, hassembled⟩ := assembled_statements h
  rw [hassembled.accepted] at hforward hsize
  have hstack : ({ stackSize := 1 } : Config).stackSize < 2 ^ 63 := by decide
  obtain ⟨hrun, hamid, -⟩ :=
    forward_run_returns h hassembled.accepted hforward (by decide) hstack
  dsimp only at hsize
  rw [hsize] at hrun hamid
  exact ⟨h, hrun false, hamid surroundings (by decide), by decide⟩

end Assembly

end StackMachine
