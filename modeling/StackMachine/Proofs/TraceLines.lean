-- SUMMARY: The trace lines in a journal, and the states of the steps that write them.
import StackMachine.Proofs.Effects
import StackMachine.Proofs.LiveStack
import StackMachine.Proofs.Numerals

/-!
# Trace lines

Each opcode that is read while tracing is on has one line in the journal, with its
address. `Machine.traceLine?` says from a state which line the next step writes, if
any; neither the operands nor the execution nor a fault adds another one. So the lines
that calls add are those of the states from which they take steps. What such a line
shows is `Machine.Traced`: offset, mnemonic and state.
-/

namespace StackMachine

/-! ## Journals -/

/-- Is the event the reading of an opcode while tracing is on? -/
def Event.isTrace : Event → Bool
  | traced .. => true
  | _ => false

namespace Journal

variable {j : Journal} {e : Event}

/-- The trace lines in the order in which they were written. -/
def traceLines (j : Journal) : List Text :=
  (j.events.filter Event.isTrace).map Event.message

theorem limit_add (j : Journal) (e : Event) : (j.add e).limit = j.limit := by
  unfold add
  split <;> rfl

theorem keeps_of_limit {j' : Journal} (h : j'.limit = j.limit) (level : Level) :
    j'.keeps level = j.keeps level := by
  rw [keeps, h, keeps]

theorem traceLines_add_of_not (h : e.isTrace = false) : (j.add e).traceLines = j.traceLines := by
  unfold add
  split
  · simp [traceLines, events, List.filter_append, h]
  · rfl

theorem traceLines_add_of_isTrace (hkeeps : j.keeps e.level) (h : e.isTrace = true) :
    (j.add e).traceLines = j.traceLines ++ [e.message] := by
  unfold add
  rw [if_pos hkeeps]
  simp [traceLines, events, List.filter_append, h]

/-- The journal keeps events as `j` does and has these trace lines. -/
structure Shows (j : Journal) (lines : List Text) (j' : Journal) : Prop where
  limit : j'.limit = j.limit
  traceLines : j'.traceLines = lines

theorem Shows.trans {j' j'' : Journal} {lines more : List Text} (h : j.Shows lines j')
    (h' : j'.Shows (j'.traceLines ++ more) j'') : j.Shows (lines ++ more) j'' :=
  ⟨h'.limit.trans h.limit, by rw [h'.traceLines, h.traceLines]⟩

theorem Shows.add {lines : List Text} {j' : Journal} (h : j.Shows lines j')
    (he : e.isTrace = false) : j.Shows lines (j'.add e) :=
  ⟨(limit_add j' e).trans h.limit, (traceLines_add_of_not he).trans h.traceLines⟩

end Journal

/-! ## States -/

namespace Snapshot

/-- The text shows the state: addresses in hexadecimal, the height in decimal, the flag
    and the live stack. -/
def Shown (s : Snapshot) (t : Text) : Prop :=
  ∃ pc sp fp rt, Hex.Spells s.pc pc ∧ Decimal.Spells s.sp.toInt sp ∧ Hex.Spells s.fp fp ∧
    Hex.Spells s.rt rt ∧
    t = "PC=".toList ++ pc ++ " SP=".toList ++ sp ++ " FP=".toList ++ fp ++ " RT=".toList ++ rt
      ++ " flag=".toList ++ flagName s.flag ++ " stack=".toList
      ++ Value.renderStack s.stack

theorem shown_render (s : Snapshot) : s.Shown s.render :=
  ⟨Hex.word s.pc, Decimal.ofInt s.sp.toInt, Hex.word s.fp, Hex.word s.rt, Hex.spells_word _,
    Decimal.spells_ofInt _, Hex.spells_word _, Hex.spells_word _, rfl⟩

end Snapshot

/-! ## Steps -/

namespace Machine

variable {m : Machine}

/-- Does the next step read an instruction? -/
def isGoing (m : Machine) : Bool :=
  m.exitCode.isNone && m.fault.isNone && !m.terminating

/-- The state of a machine that has all of its live stack. -/
def liveSnapshot (m : Machine) : Snapshot where
  pc := m.registers.pc
  sp := m.registers.sp
  fp := m.registers.fp
  rt := m.registers.rt
  flag := m.flag
  stack := m.live

theorem snapshot?_eq_live (h : m.stack? = some m.live) : m.snapshot? = some m.liveSnapshot := by
  rw [snapshot?, h, Option.map_some, liveSnapshot]

/-- The trace line of an opcode, with its address and the state behind it. -/
def traceLine (m : Machine) (op : Opcode) (pc : Int64) : Text :=
  Hex.word m.registers.pc ++ ' ' :: op.mnemonic ++ ' ' :: (m.goTo pc m.journal).liveSnapshot.render

/-- The trace line that the next step writes. There is none if tracing is off or there
    is no opcode to be read. -/
def traceLine? (m : Machine) : Option Text :=
  if m.tracing && m.isGoing then
    match Fetch.opcode m.memory m.registers.pc with
    | .ok op pc => some (m.traceLine op pc)
    | .error _ _ => none
  else none

/-- Reading the operands and executing writes no trace lines. -/
theorem keepsShown (j : Journal) (lines : List Text) (reading : Fetch Instruction) :
    Action.Keeps (fun m => j.Shows lines m.journal) (fun _ => True)
      (Action.fetch reading >>= Action.execute) :=
  Action.Keeps.bind ((Action.silent_fetch reading).keeps (P := fun _ j' => j.Shows lines j'))
    fun _ => Action.keeps_execute (P := fun _ j' => j.Shows lines j') (fun _ _ h => h)
      (fun _ _ h => h.add rfl) fun _ h => h.add rfl

theorem shows_journalBehind (hkeeps : m.journal.keeps .info) (op : Opcode) (s : Snapshot) :
    m.journal.Shows
      (m.journal.traceLines ++
        if m.tracing then [(Event.traced m.registers.pc op s).message] else [])
      (m.journalBehind op s) := by
  have hfetched : m.journal.Shows m.journal.traceLines (m.journal.add (.fetched op s)) :=
    Journal.Shows.add ⟨rfl, rfl⟩ rfl
  unfold journalBehind
  split
  · refine ⟨(Journal.limit_add _ _).trans hfetched.limit, ?_⟩
    rw [Journal.traceLines_add_of_isTrace _ rfl, hfetched.traceLines]
    exact (Journal.keeps_of_limit hfetched.limit .info).trans hkeeps
  · rwa [List.append_nil]

/-- A cycle writes the trace line of the machine. -/
theorem shows_cycle (hstack : m.stack? = some m.live) (hgo : m.isGoing = true)
    (hkeeps : m.journal.keeps .info) :
    Action.wp Action.cycle
      (fun _ m' => m.journal.Shows (m.journal.traceLines ++ m.traceLine?.toList) m'.journal)
      (fun _ m' => m.journal.Shows (m.journal.traceLines ++ m.traceLine?.toList) m'.journal) m := by
  cases hop : Fetch.opcode m.memory m.registers.pc with
  | error f pc =>
    have hline : m.traceLine? = none := by simp [traceLine?, hop]
    unfold Action.wp
    rw [cycle_of_unknown hop, hline]
    exact ⟨rfl, (List.append_nil _).symm⟩
  | ok op pc =>
    have hsnapshot := snapshot?_eq_live (m := m.goTo pc m.journal) hstack
    have hline : m.traceLine?.toList = if m.tracing then [m.traceLine op pc] else [] := by
      cases htracing : m.tracing <;> simp [traceLine?, hop, hgo, htracing]
    rw [hline]
    unfold Action.wp
    rw [cycle_of_opcode hop hsnapshot]
    exact (keepsShown _ _ (Fetch.instruction op) _ (shows_journalBehind hkeeps op _)).mono
      (fun _ _ h => h) fun _ _ h => h.2

/-- The report of a fault or a malformation is no trace line. -/
theorem shows_afterRecord {j : Journal} {lines : List Text} {event : Snapshot → Event}
    {go : Machine → EStateM.Result Abort Machine Status} (h : j.Shows lines m.journal)
    (hevent : ∀ s, (event s).isTrace = false)
    (hgo : ∀ m, (leftBy (go m)).journal = m.journal) :
    j.Shows lines (leftBy (m.afterRecord event go)).journal := by
  have hkeeps : Action.Keeps (fun m => j.Shows lines m.journal) (fun _ => True)
      (Action.record .error event) :=
    Action.keeps_record (P := fun _ j' => j.Shows lines j') fun s h => h.add (hevent s)
  have hrecord := hkeeps m h
  unfold Action.wp at hrecord
  unfold afterRecord
  cases hr : Action.record .error event m with
  | ok a m' =>
    rw [hr] at hrecord
    dsimp only
    rwa [hgo]
  | error t m' =>
    rw [hr] at hrecord
    exact hrecord.2

theorem traceLine?_of_not_isGoing (h : m.isGoing = false) : m.traceLine? = none := by
  simp [traceLine?, h]

variable {program : Bytes} {capacity : Nat}

/-- A step writes the trace line of the machine and no other. -/
theorem Bounded.shows_step (hm : m.Bounded program capacity) (hkeeps : m.journal.keeps .info) :
    m.journal.Shows (m.journal.traceLines ++ m.traceLine?.toList) (m.after .step).journal := by
  have hsilent (h : m.isGoing = false) :
      m.journal.Shows (m.journal.traceLines ++ m.traceLine?.toList) m.journal := by
    rw [traceLine?_of_not_isGoing h]
    exact ⟨rfl, (List.append_nil _).symm⟩
  obtain ⟨code, hexit⟩ | ⟨hexit, f, hfault⟩ | ⟨hexit, hfault, hterm⟩ | ⟨hready, hgo⟩ := hm.cases
  · rw [after_step_of_eq_ok (step_of_exitCode hexit)]
    exact hsilent (by simp [isGoing, hexit])
  · rw [after_step_of_eq_ok (step_of_fault hexit hfault)]
    exact hsilent (by simp [isGoing, hfault])
  · rw [after_step_of_eq_ok (step_of_terminating hexit hfault hterm)]
    exact (hsilent (by simp [isGoing, hterm])).add rfl
  have hgoing : m.isGoing = true := by simp [isGoing, hready.exitCode, hready.fault, hgo]
  have hcycle := shows_cycle hready.stack?_eq_live hgoing hkeeps
  unfold Action.wp at hcycle
  unfold Machine.after step
  simp only [hready.exitCode, hready.fault, hgo, Bool.false_eq_true, if_false]
  cases hr : Action.cycle m with
  | ok code m' =>
    rw [hr] at hcycle
    cases code <;> exact hcycle
  | error t m' =>
    rw [hr] at hcycle
    cases t with
    | fault f => exact shows_afterRecord hcycle (fun _ => rfl) fun _ => rfl
    | malformed f => exact shows_afterRecord hcycle (fun _ => rfl) fun _ => rfl
    | outOfBounds => exact hcycle

/-! ## What a line shows -/

/-- The opcode at the program counter, if there is one. -/
def opcode? (m : Machine) : Option Opcode :=
  (m.memory.byte? m.registers.pc).bind Opcode.ofByte?

/-- Does the next step read an opcode while tracing is on? -/
def traces (m : Machine) : Bool :=
  m.tracing && m.isGoing && m.opcode?.isSome

/-- The line shows what the next step reads: `0x` and the offset of the opcode in four
    hexadecimal digits or more, the mnemonic, and the state, whose program counter is
    behind the opcode. -/
def Traced (program : Bytes) (m : Machine) (line : Text) : Prop :=
  ∃ (offset : Nat) (op : Opcode) (digits state : Text),
    m.registers.pc.toInt = offset ∧ program[offset]? = some op.byte ∧
    Numeral 16 4 offset digits ∧
    Snapshot.Shown { m.liveSnapshot with pc := m.registers.pc + 1 } state ∧
    line = '0' :: 'x' :: (digits ++ ' ' :: op.mnemonic ++ ' ' :: state)

theorem fetch_opcode_eq (m : Machine) :
    Fetch.opcode m.memory m.registers.pc =
      match m.memory.byte? m.registers.pc with
      | none => .error (.unexpectedEnd m.registers.pc.toInt) m.registers.pc
      | some b =>
        match Opcode.ofByte? b with
        | none => .error (.unknownOpcode b m.registers.pc.toInt) (m.registers.pc + 1)
        | some op => .ok op (m.registers.pc + 1) := by
  change (Fetch.byte >>= _ : Fetch Opcode) m.memory m.registers.pc = _
  rw [Fetch.bind_apply, Fetch.byte]
  cases m.memory.byte? m.registers.pc with
  | none => rfl
  | some b =>
    dsimp only
    cases Opcode.ofByte? b <;> rfl

theorem traceLine?_of_not_traces (h : m.traces = false) : m.traceLine? = none := by
  unfold traceLine?
  split
  · rename_i hgoing
    have hnone : m.opcode? = none := by simpa [traces, hgoing] using h
    rw [fetch_opcode_eq]
    cases hb : m.memory.byte? m.registers.pc with
    | none => rfl
    | some b =>
      have hop : Opcode.ofByte? b = none := by simpa [opcode?, hb] using hnone
      simp only [hop]
  · rfl

theorem InBounds.exists_traced (hm : m.InBounds program capacity) (h : m.traces = true) :
    ∃ line, m.traceLine? = some line ∧ Traced program m line := by
  have htraces : (m.tracing && m.isGoing) = true ∧ m.opcode?.isSome = true := by
    simpa [traces] using h
  obtain ⟨op, hop⟩ := Option.isSome_iff_exists.1 htraces.2
  obtain ⟨b, hb, hbyte⟩ := Option.bind_eq_some_iff.1 hop
  have hline : m.traceLine? = some (m.traceLine op (m.registers.pc + 1)) := by
    rw [traceLine?, if_pos htraces.1, fetch_opcode_eq, hb]
    simp only [hbyte]
  have hread : program[m.registers.pc.toInt.toNat]? = some op.byte := by
    rw [Memory.byte?, if_pos hm.zero_le_pc, hm.code, List.getElem?_toArray] at hb
    rw [hb, Opcode.byte_of_ofByte? hbyte]
  have hword : m.registers.pc.toUInt64.toNat = m.registers.pc.toInt.toNat := by
    rw [← Word.cast_toUInt64 hm.zero_le_pc, Int.toNat_natCast]
  obtain ⟨digits, hdigits, hspelled⟩ := Hex.spells_word m.registers.pc
  rw [hword] at hdigits
  refine ⟨_, hline, m.registers.pc.toInt.toNat, op, digits, _, hm.toInt_pc, hread, hdigits,
    Snapshot.shown_render _, ?_⟩
  rw [traceLine, hspelled]
  rfl

/-- The lines of states are those of the states that trace, in their order. -/
theorem forall₂_traced {states : List Machine} (h : ∀ s ∈ states, s.InBounds program capacity) :
    List.Forall₂ (Traced program) (states.filter traces) (states.filterMap traceLine?) := by
  induction states with
  | nil => exact .nil
  | cons s states ih =>
    have ih := ih fun t ht => h t (List.mem_cons_of_mem s ht)
    cases htraces : s.traces with
    | false =>
      rw [List.filter_cons_of_neg (by simp [htraces]),
        List.filterMap_cons_none (traceLine?_of_not_traces htraces)]
      exact ih
    | true =>
      obtain ⟨line, hline, htraced⟩ := (h s List.mem_cons_self).exists_traced htraces
      rw [List.filter_cons_of_pos htraces, List.filterMap_cons_some hline]
      exact .cons htraced ih

/-! ## Runs and calls -/

/-- The states from which a run takes its steps. -/
def runStates : Machine → (bound : Nat) → List Machine
  | _, 0 => []
  | m, bound + 1 => m ::
    match m.step with
    | .ok .running m' => m'.runStates bound
    | _ => []

/-- The states of a run are those that single steps go through. -/
theorem eq_afterSteps_of_runStates {bound k : Nat} {s : Machine}
    (h : (m.runStates bound)[k]? = some s) : s = m.afterSteps k := by
  induction bound generalizing m k with
  | zero => cases h
  | succ bound ih =>
    cases k with
    | zero => exact (Option.some.inj h).symm
    | succ k =>
      rw [runStates, List.getElem?_cons_succ] at h
      split at h
      · rename_i m' hstep
        rw [afterSteps, after_step_of_eq_ok hstep]
        exact ih h
      · cases h

/-- The states from which a call takes steps. -/
def stepStates (m : Machine) : Call → List Machine
  | .step => [m]
  | .run bound => m.runStates bound
  | .terminate _ | .output _ => []

/-- The states from which all of the calls take steps, in their order. -/
def allStates : Machine → List Call → List Machine
  | _, [] => []
  | m, c :: calls => m.stepStates c ++ (m.after c).allStates calls

section Sizes

variable (hsize : program.length < 2 ^ 63) (hcap : capacity < 2 ^ 63)
include hsize hcap

theorem Bounded.shows_run (hm : m.Bounded program capacity) (hkeeps : m.journal.keeps .info)
    (bound : Nat) :
    m.journal.Shows (m.journal.traceLines ++ (m.runStates bound).filterMap traceLine?)
      (leftBy (m.run bound)).journal := by
  induction bound generalizing m with
  | zero => exact ⟨rfl, (List.append_nil _).symm⟩
  | succ bound ih =>
    have hnext : (leftBy m.step).Bounded program capacity := hm.after hsize hcap .step
    have hshows : m.journal.Shows _ (leftBy m.step).journal := hm.shows_step hkeeps
    rw [run_succ, runStates, List.filterMap_eq_flatMap_toList, List.flatMap_cons,
      ← List.append_assoc, ← List.filterMap_eq_flatMap_toList]
    generalize m.step = r at hnext hshows
    cases r with
    | error a m' =>
      rw [List.filterMap_nil, List.append_nil]
      exact hshows
    | ok status m' =>
      cases status with
      | running =>
        exact hshows.trans (ih hnext ((Journal.keeps_of_limit hshows.limit .info).trans hkeeps))
      | halted code =>
        rw [List.filterMap_nil, List.append_nil]
        exact hshows.add rfl
      | faulted =>
        rw [List.filterMap_nil, List.append_nil]
        exact hshows

theorem Bounded.shows_after (hm : m.Bounded program capacity) (hkeeps : m.journal.keeps .info)
    (c : Call) :
    m.journal.Shows (m.journal.traceLines ++ (m.stepStates c).filterMap traceLine?)
      (m.after c).journal := by
  cases c with
  | step =>
    have hshows := hm.shows_step hkeeps
    rwa [stepStates, List.filterMap_eq_flatMap_toList, List.flatMap_singleton]
  | run bound => exact hm.shows_run hsize hcap hkeeps bound
  | terminate on => exact ⟨rfl, (List.append_nil _).symm⟩
  | output sink => exact ⟨rfl, (List.append_nil _).symm⟩

theorem Bounded.of_mem_runStates {s : Machine} {bound : Nat} (hm : m.Bounded program capacity)
    (h : s ∈ m.runStates bound) : s.Bounded program capacity := by
  induction bound generalizing m with
  | zero => exact absurd h List.not_mem_nil
  | succ bound ih =>
    have hnext : (leftBy m.step).Bounded program capacity := hm.after hsize hcap .step
    rw [runStates, List.mem_cons] at h
    obtain rfl | h := h
    · exact hm
    · split at h
      · rename_i m' hstep
        rw [hstep] at hnext
        exact ih hnext h
      · exact absurd h List.not_mem_nil

theorem Bounded.of_mem_allStates {s : Machine} {calls : List Call}
    (hm : m.Bounded program capacity) (h : s ∈ m.allStates calls) :
    s.Bounded program capacity := by
  induction calls generalizing m with
  | nil => exact absurd h List.not_mem_nil
  | cons c calls ih =>
    rw [allStates, List.mem_append] at h
    obtain h | h := h
    · cases c with
      | step =>
        rw [List.mem_singleton.1 h]
        exact hm
      | run bound => exact hm.of_mem_runStates hsize hcap h
      | terminate on | output sink => exact absurd h List.not_mem_nil
    · exact ih (hm.after hsize hcap c) h

/-- The calls write the trace lines of the states from which they take steps. -/
theorem Bounded.shows_afterAll (hm : m.Bounded program capacity)
    (hkeeps : m.journal.keeps .info) (calls : List Call) :
    m.journal.Shows (m.journal.traceLines ++ (m.allStates calls).filterMap traceLine?)
      (m.afterAll calls).journal := by
  induction calls generalizing m with
  | nil => exact ⟨rfl, (List.append_nil _).symm⟩
  | cons c calls ih =>
    have hshows := hm.shows_after hsize hcap hkeeps c
    rw [allStates, List.filterMap_append, ← List.append_assoc]
    exact hshows.trans (ih (hm.after hsize hcap c)
      ((Journal.keeps_of_limit hshows.limit .info).trans hkeeps))

end Sizes

end Machine

end StackMachine
