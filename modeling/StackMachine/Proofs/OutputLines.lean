-- SUMMARY: The output is made of lines, one for each instruction that prints and one for each run that ends in a fault.
import StackMachine.Proofs.ControlCharacters
import StackMachine.Proofs.OutputLimits
import StackMachine.Proofs.Surroundings

/-!
# Lines of output

An instruction that prints writes the text that it shows and a line feed, and no other
instruction writes anything. `Machine.line?` says from a state which line the next step
prints, so that on a sink without limit the output of any number of steps is made of
the lines of the states from which they are taken. The texts hold no control character,
whatever the values are, so that the line feeds in the output are those at the ends of
its lines.
-/

namespace StackMachine

/-! ## Lines -/

namespace Utf8

/-- The bytes of lines, each of which ends in a line feed. -/
def encodeLines (lines : List Text) : Bytes :=
  lines.flatMap fun line => encode line ++ [10]

variable {lines more : List Text}

theorem encode_line (line : Text) : encode (line ++ ['\n']) = encodeLines [line] := by
  rw [encode_append, encodeLines, List.flatMap_singleton]
  rfl

theorem encodeLines_append :
    encodeLines (lines ++ more) = encodeLines lines ++ encodeLines more :=
  List.flatMap_append

/-- There are as many line feeds as lines if none is within a line. -/
theorem count_encodeLines (h : ∀ line ∈ lines, line.Visible) :
    (encodeLines lines).count 10 = lines.length := by
  induction lines with
  | nil => rfl
  | cons line lines ih =>
    obtain ⟨hline, hlines⟩ := List.forall_mem_cons.1 h
    have hnone : (encode line).count 10 = 0 :=
      List.count_eq_zero_of_not_mem fun hmem => by
        have hlow := (range_of_mem_encode hline 10 hmem).1
        exact absurd hlow (by decide)
    rw [encodeLines, List.flatMap_cons, List.count_append, List.count_append, hnone,
      ← encodeLines, ih hlines, List.length_cons]
    exact Nat.add_comm _ _

end Utf8

namespace Sink

variable {sink sink' sink'' : Sink} {lines more : List Text}

theorem write_nil (sink : Sink) : sink.write [] = sink := by
  unfold write
  split <;> simp

/-- The sink has no limit, and holds the lines behind what `sink` holds. -/
structure Gains (sink : Sink) (lines : List Text) (sink' : Sink) : Prop where
  limit : sink'.limit = none
  bytes : sink'.bytes = sink.bytes ++ Utf8.encodeLines lines

theorem Gains.nothing (h : sink.limit = none) : sink.Gains [] sink :=
  ⟨h, (List.append_nil _).symm⟩

theorem Gains.write (h : sink.limit = none) (line : Text) :
    sink.Gains [line] (sink.write (Utf8.encode (line ++ ['\n']))) where
  limit := (limit_write _).trans h
  bytes := by rw [bytes_write_of_unlimited h, Utf8.encode_line]

theorem Gains.trans (h : sink.Gains lines sink') (h' : sink'.Gains more sink'') :
    sink.Gains (lines ++ more) sink'' :=
  ⟨h'.limit, by rw [h'.bytes, h.bytes, Utf8.encodeLines_append, List.append_assoc]⟩

end Sink

/-! ## Instructions -/

namespace Machine

variable {program : Bytes} {capacity : Nat} {m : Machine}

/-- The text that the instruction shows of the machine. There is none if it does not
    print, or would print the top of an empty stack. -/
def shown? (m : Machine) : Instruction → Option Text
  | .print => m.live.getLast?.map Value.render
  | .printRegister r => some (m.registers.get r).render
  | .dump => some (Value.renderStack m.live)
  | .dumpRegisters => some m.registers.render
  | _ => none

theorem shown?_of_not_prints {i : Instruction} (h : ¬ i.prints) : m.shown? i = none := by
  cases i with
  | print | printRegister | dump | dumpRegisters => exact absurd rfl h
  | _ => rfl

theorem visible_of_shown? {i : Instruction} {line : Text} (h : m.shown? i = some line) :
    line.Visible := by
  cases i with
  | print =>
    obtain ⟨v, -, rfl⟩ := Option.map_eq_some_iff.1 h
    exact Value.visible_render v
  | printRegister r =>
    cases h
    exact Value.visible_render _
  | dump =>
    cases h
    exact Value.visible_renderStack _
  | dumpRegisters =>
    cases h
    exact RegisterFile.visible_render _
  | _ => cases h

end Machine

namespace Action

variable {program : Bytes} {capacity : Nat} {m : Machine}

theorem wp_printLine_of_unlimited {R : Unit → Machine → Prop} {T : Trap → Machine → Prop}
    (h : m.output.limit = none) (line : Text) :
    wp (printLine line) R T m ↔
      R () { m with output := m.output.write (Utf8.encode (line ++ ['\n'])) } := by
  have hfits (n : Nat) : m.output.fits n = true := by rw [Sink.fits, h]
  rw [wp_printLine]
  simp only [hfits, true_implies, not_true, false_implies, and_true]

/-- An instruction that prints writes the line that it shows, unless there is nothing to
    be shown, and another one writes nothing. -/
theorem gains_execute (hm : m.Ready program capacity) (hunlimited : m.output.limit = none)
    (i : Instruction) :
    wp (execute i)
      (fun _ m' => m.output.Gains (m.shown? i).toList m'.output ∧ (m.shown? i).isSome = i.prints)
      (fun _ m' => m'.output = m.output ∧ m.shown? i = none) m := by
  by_cases hi : i.prints
  · have goOn {line : Text} (hshown : m.shown? i = some line) :
        wp (do printLine line; return (none : Option UInt8))
          (fun _ m' =>
            m.output.Gains (m.shown? i).toList m'.output ∧ (m.shown? i).isSome = i.prints)
          (fun _ m' => m'.output = m.output ∧ m.shown? i = none) m := by
      rw [wp_bind, wp_printLine_of_unlimited hunlimited, hshown]
      exact ⟨.write hunlimited line, hi.symm⟩
    cases i with
    | print =>
      unfold execute
      rw [wp_bind, wp_top_live hm]
      cases hlast : m.live.getLast? with
      | none => exact ⟨rfl, by rw [Machine.shown?, hlast, Option.map_none]⟩
      | some v => exact goOn (by rw [Machine.shown?, hlast, Option.map_some])
    | printRegister r =>
      unfold execute register
      rw [wp_bind, wp_bind, wp_get, wp_pure]
      exact goOn (by rw [Machine.shown?])
    | dump =>
      unfold execute
      rw [wp_bind, wp_dump_live hm, ← wp_bind]
      exact goOn (by rw [Machine.shown?])
    | dumpRegisters =>
      unfold execute
      rw [wp_bind, wp_get]
      exact goOn (by rw [Machine.shown?])
    | _ => cases hi
  · have hnone : m.shown? i = none := Machine.shown?_of_not_prints hi
    have hkept := keeps_execute (i := i) (P := fun s _ => s = m.output)
      (fun _ hprints _ => absurd hprints hi) (fun _ _ h => h) (fun _ h => h) m rfl
    rw [hnone, Bool.eq_false_iff.2 hi]
    refine hkept.mono (fun _ m' hm' => ⟨?_, rfl⟩) fun _ m' hm' => ⟨hm'.2, rfl⟩
    rw [hm']
    exact .nothing hunlimited

end Action

/-! ## Steps -/

namespace Machine

variable {program : Bytes} {config : Config} {capacity : Nat} {m : Machine}

/-- The line that the next step prints, if it prints one. The program counter is behind
    the instruction then, and that is what is shown of it. -/
def line? (m : Machine) : Option Text :=
  if m.isGoing then
    match Fetch.decode m.memory m.registers.pc with
    | .ok i pc => (m.goTo pc m.journal).shown? i
    | .error _ _ => none
  else none

/-- The next step executes an instruction that prints, without a fault. -/
def Prints (m : Machine) : Prop :=
  ∃ i, m.Executes i ∧ i.prints ∧ (m.after .step).fault = none

instance (m : Machine) : Decidable m.Prints :=
  match hdecoded : Fetch.decode m.memory m.registers.pc with
  | .error _ _ => .isFalse fun ⟨_, ⟨_, _, _, _, hi⟩, _⟩ => nomatch hdecoded.symm.trans hi
  | .ok i pc =>
    decidable_of_iff (m.Executes i ∧ i.prints ∧ (m.after .step).fault = none) <| by
      refine ⟨fun h => ⟨i, h⟩, ?_⟩
      rintro ⟨j, hj, h⟩
      obtain ⟨-, -, -, _, hdecoded'⟩ := id hj
      cases hdecoded.symm.trans hdecoded'
      exact ⟨hj, h⟩

/-- The next step adds the line of the machine to the output and nothing else, and there
    is a line exactly if an instruction that prints completes. -/
structure WritesLine (m : Machine) : Prop where
  gains : m.output.Gains m.line?.toList (m.after .step).output
  isSome_iff : m.line?.isSome = true ↔ m.Prints

theorem line?_of_not_executes (h : ∀ i, ¬ m.Executes i) : m.line? = none := by
  unfold line?
  by_cases hgo : m.isGoing = true
  · rw [if_pos hgo]
    obtain ⟨hfault, hexit, hterm⟩ := isGoing_iff.1 hgo
    cases hdecoded : Fetch.decode m.memory m.registers.pc with
    | ok i pc => exact absurd ⟨hfault, hexit, hterm, pc, hdecoded⟩ (h i)
    | error f pc => rfl
  · rw [if_neg hgo]

theorem line?_of_decode_eq_ok {i : Instruction} {pc : Int64} (hgo : m.isGoing = true)
    (hi : Fetch.decode m.memory m.registers.pc = .ok i pc) (journal : Journal) :
    m.line? = (m.goTo pc journal).shown? i := by
  rw [line?, if_pos hgo, hi]
  rfl

theorem prints_iff {i : Instruction} (h : m.Executes i) :
    m.Prints ↔ i.prints ∧ (m.after .step).fault = none := by
  refine ⟨?_, fun hprints => ⟨i, h, hprints⟩⟩
  rintro ⟨j, hj, hprints⟩
  cases hj.unique h
  exact hprints

/-- Without an instruction to execute there is nothing to print. -/
theorem writesLine_of_not_executes (h : ∀ i, ¬ m.Executes i) (hunlimited : m.output.limit = none)
    (houtput : (m.after .step).output = m.output) :
    m.WritesLine := by
  have hline := line?_of_not_executes h
  constructor
  · rw [hline, houtput]
    exact .nothing hunlimited
  · rw [hline]
    refine iff_of_false Bool.false_ne_true ?_
    rintro ⟨i, hi, -⟩
    exact h i hi

theorem visible_of_line? {line : Text} (h : m.line? = some line) : line.Visible := by
  unfold line? at h
  split at h
  · split at h
    · exact visible_of_shown? h
    · cases h
  · cases h

/-- The lines that so many steps print, the first one first. -/
def lines (m : Machine) (k : Nat) : List Text :=
  (List.range k).filterMap fun j => (m.afterSteps j).line?

theorem lines_succ (m : Machine) (k : Nat) :
    m.lines (k + 1) = m.lines k ++ (m.afterSteps k).line?.toList := by
  rw [lines, List.range_succ, List.filterMap_append, ← lines,
    List.filterMap_eq_flatMap_toList (l := [k]), List.flatMap_singleton]

/-- The line about the fault that a run has ended in, if it has. -/
def report? : EStateM.Result Abort Machine (Option UInt8) → Option Text
  | .ok (some _) m => m.fault.map fun f => "Error: ".toList ++ f.message
  | _ => none

theorem visible_of_report? {r : EStateM.Result Abort Machine (Option UInt8)} {line : Text}
    (h : report? r = some line) : line.Visible := by
  unfold report? at h
  split at h
  · obtain ⟨f, -, rfl⟩ := Option.map_eq_some_iff.1 h
    exact Text.Visible.append (by decide) (Fault.visible_message f)
  · cases h

theorem visible_of_mem_lines {k : Nat} {line : Text} (h : line ∈ m.lines k) : line.Visible := by
  obtain ⟨j, -, hline⟩ := List.mem_filterMap.1 h
  exact visible_of_line? hline

/-- A machine that has halted has no fault. -/
theorem Bounded.fault_of_halted {code : UInt8} (hm : m.Bounded program capacity)
    (h : m.ending? = some (.halted code)) : m.fault = none := by
  obtain hfault | hexit := hm.ended
  · exact hfault
  · unfold ending? at h
    rw [hexit] at h
    cases hfault : m.fault with
    | none => rfl
    | some f =>
      rw [hfault] at h
      cases h

section Sizes

variable (hsize : program.length < 2 ^ 63) (hcap : capacity < 2 ^ 63)
include hsize hcap

/-- An instruction that completes has printed if it is one that prints, and one that
    faults has not. -/
theorem Ready.writesLine {i : Instruction} {pc : Int64} (hm : m.Ready program capacity)
    (hunlimited : m.output.limit = none) (hgo : m.terminating = false)
    (hi : Fetch.decode m.memory m.registers.pc = .ok i pc) :
    m.WritesLine := by
  obtain ⟨journal, hstep⟩ := (hm.cycles hsize hcap hgo).of_decode_eq_ok hi
  have hready := hm.goTo_of_decode_eq_ok hsize journal hi
  have hwp := (Action.keepsReady_execute hcap i _ hready).and
    (Action.gains_execute hready hunlimited i)
  have hprints := prints_iff ⟨hm.fault, hm.exitCode, hgo, pc, hi⟩
  have hline := line?_of_decode_eq_ok (isGoing_iff.2 ⟨hm.fault, hm.exitCode, hgo⟩) hi journal
  suffices h : m.output.Gains m.line?.toList (m.after .step).output ∧
      (m.line?.isSome = true ↔ m.Prints) from ⟨h.1, h.2⟩
  rw [hprints, hline]
  generalize (m.goTo pc journal).shown? i = shown at hwp
  have hcompleted {m' : Machine} (h : m'.Ready program capacity ∧
      m.output.Gains shown.toList m'.output ∧ shown.isSome = i.prints) :
      m.output.Gains shown.toList m'.output ∧
        (shown.isSome = true ↔ i.prints ∧ m'.fault = none) := by
    obtain ⟨hm', hgains, hsome⟩ := h
    rw [hsome]
    exact ⟨hgains, fun h => ⟨h, hm'.fault⟩, And.left⟩
  unfold Action.wp at hwp
  unfold Machine.after
  generalize Action.execute i (m.goTo pc journal) = x at hstep hwp
  generalize m.step = r at hstep
  cases hstep with
  | halted code m' => exact @hcompleted m' hwp
  | ran m' => exact @hcompleted m' hwp
  | faulted f m' journal' =>
    obtain ⟨-, houtput, hnone⟩ := hwp
    rw [hnone]
    refine ⟨?_, iff_of_false Bool.false_ne_true fun h => Option.some_ne_none f h.2⟩
    change Sink.Gains _ _ m'.output
    rw [houtput]
    exact .nothing hunlimited

theorem Bounded.writesLine (hm : m.Bounded program capacity) (hunlimited : m.output.limit = none) :
    m.WritesLine := by
  obtain ⟨code, hexit⟩ | ⟨hexit, f, hfault⟩ | ⟨hexit, hfault, hterm⟩ | ⟨hready, hgo⟩ := hm.cases
  · refine writesLine_of_not_executes (fun i hi => ?_) hunlimited ?_
    · cases hi.2.1.symm.trans hexit
    · rw [after_step_of_eq_ok (step_of_exitCode hexit)]
  · refine writesLine_of_not_executes (fun i hi => ?_) hunlimited ?_
    · cases hi.1.symm.trans hfault
    · rw [after_step_of_eq_ok (step_of_fault hexit hfault)]
  · refine writesLine_of_not_executes (fun i hi => ?_) hunlimited ?_
    · cases hi.2.2.1.symm.trans hterm
    · rw [after_step_of_eq_ok (step_of_terminating hexit hfault hterm)]
  · cases hdecoded : Fetch.decode m.memory m.registers.pc with
    | error f pc =>
      obtain ⟨journal, hstep⟩ := (hready.cycles hsize hcap hgo).of_decode_eq_error hdecoded
      refine writesLine_of_not_executes ?_ hunlimited ?_
      · rintro i ⟨-, -, -, _, hi⟩
        cases hdecoded.symm.trans hi
      · rw [Machine.after, hstep]
        rfl
    | ok i pc => exact hready.writesLine hsize hcap hunlimited hgo hdecoded

/-- Steps print the lines of the machines that take them. -/
theorem Bounded.gains_afterSteps (hm : m.Bounded program capacity)
    (hunlimited : m.output.limit = none) (k : Nat) :
    m.output.Gains (m.lines k) (m.afterSteps k).output := by
  induction k with
  | zero => exact .nothing hunlimited
  | succ k ih =>
    have hstep := ((hm.afterSteps hsize hcap k).writesLine hsize hcap ih.limit).gains
    rw [lines_succ, afterSteps_succ]
    exact ih.trans hstep

/-! ## Runs -/

/-- A run takes so many steps, and then writes the line of the fault if there is one. -/
theorem Bounded.exists_run_eq_afterSteps (hm : m.Bounded program capacity) (bound : Nat) :
    ∃ k ≤ bound, ∃ journal,
      leftBy (m.run bound) =
        { m.afterSteps k with
          output := (m.afterSteps k).output.write
            (Utf8.encodeLines (report? (m.run bound)).toList)
          journal } := by
  -- A run that writes no line leaves the output as it is.
  have hsilent (n : Machine) : n.output.write (Utf8.encodeLines []) = n.output := Sink.write_nil _
  induction bound generalizing m with
  | zero =>
    refine ⟨0, Nat.le_refl 0, m.journal, ?_⟩
    change m = { m with output := m.output.write (Utf8.encodeLines []) }
    rw [hsilent]
  | succ bound ih =>
    have hm' := hm.after hsize hcap .step
    rw [run_succ]
    cases hstep : m.step with
    | error a m' =>
      have hafter : m.afterSteps 1 = m' := by
        rw [Machine.afterSteps, Machine.afterSteps, Machine.after, hstep, leftBy]
      refine ⟨1, Nat.le_add_left 1 bound, m'.journal, ?_⟩
      rw [hafter]
      change m' = { m' with output := m'.output.write (Utf8.encodeLines []) }
      rw [hsilent]
    | ok status m' =>
      rw [after_step_of_eq_ok hstep] at hm'
      have hafter : m.afterSteps 1 = m' := after_step_of_eq_ok hstep
      cases status with
      | running =>
        obtain ⟨k, hk, journal, hrun⟩ := ih hm'
        refine ⟨k + 1, Nat.succ_le_succ hk, journal, ?_⟩
        rw [Machine.afterSteps, after_step_of_eq_ok hstep]
        exact hrun
      | halted code =>
        have hnone := hm'.fault_of_halted (ending_of_step hstep (by simp))
        refine ⟨1, Nat.le_add_left 1 bound, m'.journal.add (.halted code), ?_⟩
        dsimp only [leftBy, report?]
        rw [hafter, hnone, Option.map_none, Option.toList_none, hsilent]
      | faulted =>
        obtain ⟨f, hf⟩ := exists_fault_of_ending (ending_of_step hstep (by simp))
        refine ⟨1, Nat.le_add_left 1 bound, m'.journal, ?_⟩
        dsimp only [leftBy, report?]
        rw [hafter, encode_faultLine hf, hf, Option.map_some, Option.toList_some, errorLine,
          Utf8.encode_line]

end Sizes

/-- The output is made of lines, whatever is printed, from every state with an unlimited
    sink that a machine can get into; a machine that was just set up has written nothing.
    A step prints a line exactly if it executes `PRINT`, `PRINTR`, `DUMP` or `DUMPR` and
    completes. What any number of steps add to the output are these lines in the order
    of the steps, each with a line feed behind it, and there are as many line feeds as
    such steps. A run adds what the steps that it takes add, and one more line if it ends
    in a fault. No text of a line has a byte below `0x20`, or `0x7F`. -/
theorem output_is_lines (hsize : program.length < 2 ^ 63) (hstack : config.stackSize < 2 ^ 63)
    (h : Reachable program config m) (hunlimited : m.output.limit = none) :
    (ofProgram program config).output.bytes = [] ∧
    (∀ j, (m.afterSteps j).line?.isSome = true ↔ (m.afterSteps j).Prints) ∧
    (∀ k,
      (m.afterSteps k).output.bytes = m.output.bytes ++ Utf8.encodeLines (m.lines k) ∧
      (Utf8.encodeLines (m.lines k)).count 10 =
        (List.range k).countP (fun j => (m.afterSteps j).Prints) ∧
      ∀ line ∈ m.lines k, ∀ b ∈ Utf8.encode line, 0x20 ≤ b ∧ b ≠ 0x7F) ∧
    ∀ bound, ∃ k ≤ bound,
      (∃ output journal, leftBy (m.run bound) = { m.afterSteps k with output, journal }) ∧
      (leftBy (m.run bound)).output.bytes =
        (m.afterSteps k).output.bytes ++ Utf8.encodeLines (report? (m.run bound)).toList ∧
      ∀ line ∈ report? (m.run bound), ∀ b ∈ Utf8.encode line, 0x20 ≤ b ∧ b ≠ 0x7F := by
  have hm := h.bounded hsize hstack
  have hprints (j : Nat) : (m.afterSteps j).line?.isSome = true ↔ (m.afterSteps j).Prints :=
    ((hm.afterSteps hsize hstack j).writesLine hsize hstack
      (hm.gains_afterSteps hsize hstack hunlimited j).limit).isSome_iff
  refine ⟨rfl, hprints, fun k => ?_, fun bound => ?_⟩
  · have hvisible : ∀ line ∈ m.lines k, line.Visible := fun _ => visible_of_mem_lines
    refine ⟨(hm.gains_afterSteps hsize hstack hunlimited k).bytes, ?_, fun line hline =>
      Utf8.range_of_mem_encode (hvisible line hline)⟩
    rw [Utf8.count_encodeLines hvisible, lines, List.length_filterMap_eq_countP]
    refine List.countP_congr fun j _ => ?_
    rw [decide_eq_true_iff]
    exact hprints j
  · obtain ⟨k, hk, journal, hrun⟩ := hm.exists_run_eq_afterSteps hsize hstack bound
    have hlimit := (hm.gains_afterSteps hsize hstack hunlimited k).limit
    refine ⟨k, hk, ⟨_, journal, hrun⟩, ?_, fun line hline => ?_⟩
    · rw [hrun]
      exact Sink.bytes_write_of_unlimited hlimit _
    · exact Utf8.range_of_mem_encode (visible_of_report? hline)

/-- A string with a line feed, a carriage return, a zero byte and a byte that is no UTF-8
    is printed and dumped on one line each. The second `PRINT` finds no value, and the
    run adds a third line about that. -/
theorem output_is_lines_with_control_characters :
    let program := Opcode.pushString.byte :: 0 :: 4 :: [10, 13, 0, 255] ++
      [Opcode.print.byte, Opcode.dump.byte, Opcode.pop.byte, Opcode.print.byte]
    let m := ofProgram program { stackSize := 1 }
    let line : Bytes := [34, 92, 110, 92, 114, 92, 48, 239, 191, 189, 34]
    (m.afterSteps 5).output.bytes = line ++ [10] ++ ([91] ++ line ++ [93, 10]) ∧
    (Utf8.encodeLines (m.lines 5)).count 10 = 2 ∧
    ∃ k ≤ 6, (leftBy (m.run 6)).output.bytes =
      (m.afterSteps k).output.bytes ++ errorLine (.stackUnderflow .print) := by
  intro program m line
  obtain ⟨hfresh, -, hsteps, hruns⟩ :=
    output_is_lines (by decide) (by decide) (.fresh : Reachable program { stackSize := 1 } m) rfl
  obtain ⟨hbytes, hcount, -⟩ := hsteps 5
  obtain ⟨k, hk, -, hrun, -⟩ := hruns 6
  have hlines : m.lines 5 =
      ["\"\\n\\r\\0\uFFFD\"".toList, "[\"\\n\\r\\0\uFFFD\"]".toList] := by
    decide +kernel
  have hprinted : (List.range 5).countP (fun j => (m.afterSteps j).Prints) = 2 := by
    decide +kernel
  have hreport : report? (m.run 6) = some "Error: stack underflow in PRINT".toList := by
    decide +kernel
  refine ⟨?_, hcount.trans hprinted, k, hk, ?_⟩
  · rw [hbytes, hlines, hfresh]
    rfl
  · rw [hrun, hreport, errorLine, Utf8.encode_line]
    rfl

end Machine

end StackMachine
