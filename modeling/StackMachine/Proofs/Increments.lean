-- SUMMARY: What a line adds to an assembly, whether the line is accepted or refused.
import Mathlib.Data.List.Induction
import StackMachine.Proofs.ForwardPass

/-!
# Increments

A refused line is not undone: the labels in front of the mistake stay defined,
and so does the part of a statement that was read. What a line adds is therefore
of one kind in both outcomes: some of its labels, and then one statement at most.
`Assembly.after_adds` says so, and what follows about growing assemblies is by
cases on it.
-/

namespace StackMachine

/-! ## Mistakes of a line -/

/-- The line alone is at fault, whatever labels other lines define. -/
def Mistake.Local : Mistake → Prop
  | .undefinedLabel _ => False
  | _ => True

theorem Mistake.Local.ne {mistake : Mistake} (h : mistake.Local) (label : Text) :
    mistake ≠ .undefinedLabel label := by
  rintro rfl
  exact h

namespace Argument

variable {layout : Layout} {t : Text} {mistake : Mistake}

/-- What reads a number can only fail where the number is read, or as it does
    on that number. -/
theorem local_of_number {f : Int → Except Mistake Argument}
    (hf : ∀ v e, f v = .error e → e.Local) (h : readNumber t >>= f = .error mistake) :
    mistake.Local := by
  unfold readNumber at h
  cases hv : Decimal.parse? t with
  | none =>
    rw [hv] at h
    cases h
    trivial
  | some v =>
    rw [hv] at h
    exact hf v mistake h

theorem local_of_readInteger (h : readInteger t = .error mistake) : mistake.Local := by
  refine local_of_number (fun v e he => ?_) h
  split at he
  · cases he
  · cases he
    trivial

/-- Reading an argument does not ask which labels are defined. -/
theorem local_of_read {kind : OperandKind} (h : read kind t = .error mistake) :
    mistake.Local := by
  cases kind with
  | exitCode =>
    refine local_of_number (fun v e he => ?_) h
    split at he
    · cases he
    · cases he
      trivial
  | register =>
    change readRegister t = _ at h
    unfold readRegister at h
    split at h
    · split at h
      · cases h
      · cases h
        trivial
    · cases h
      trivial
  | integer => exact local_of_readInteger h
  | address =>
    change readAddress t = _ at h
    unfold readAddress at h
    split at h
    · cases h
      trivial
    · cases h
    · exact local_of_readInteger h
  | string =>
    change readString t = _ at h
    unfold readString at h
    split at h
    · cases h
      trivial
    · dsimp only at h
      split at h
      · cases h
      · cases h
        trivial

theorem local_of_untilMistake {results : List (Except Mistake Argument)}
    {arguments : List Argument} (hresults : ∀ e, .error e ∈ results → e.Local)
    (h : untilMistake results = (arguments, some mistake)) : mistake.Local := by
  induction results generalizing arguments with
  | nil => cases h
  | cons result results ih =>
    cases result with
    | error e =>
      cases h
      exact hresults _ List.mem_cons_self
    | ok argument =>
      rw [untilMistake] at h
      cases hrest : untilMistake results with
      | mk rest mistake' =>
        rw [hrest] at h
        cases h
        exact ih (fun e he => hresults e (List.mem_cons_of_mem _ he)) hrest

theorem local_of_readAll {arguments : List Argument}
    (h : readAll layout t = (arguments, some mistake)) : mistake.Local := by
  unfold readAll at h
  cases hsplit : split layout t with
  | error e =>
    rw [hsplit] at h
    cases h
    obtain ⟨rfl, -⟩ := split_eq_error hsplit
    trivial
  | ok parts =>
    rw [hsplit] at h
    refine local_of_untilMistake (fun e he => ?_) h
    obtain ⟨part, -, hread⟩ := List.mem_map.1 he
    exact local_of_read hread

end Argument

namespace Assembly

variable {a b c : Assembly} {line : Text} {lines : List Text}

/-! ## Taking a line -/

/-- The labels that are defined when these are taken one after the other: those
    in front of the first that is refused. -/
def definable (a : Assembly) : List Text → List Text
  | [] => []
  | label :: labels =>
    match define label a with
    | .error _ _ => []
    | .ok _ b => label :: b.definable labels

/-- A label that is refused changes nothing. -/
theorem define_cases (label : Text) (a : Assembly) :
    (∃ b, define label a = .ok () b) ∨
      ∃ mistake : Mistake, mistake.Local ∧ define label a = .error ⟨a.line, mistake⟩ a := by
  unfold define
  split
  · exact .inr ⟨.emptyLabel, trivial, rfl⟩
  · split
    · exact .inr ⟨.duplicateLabel label, trivial, rfl⟩
    · exact .inl ⟨_, rfl⟩

/-- Labels are taken as far as they are definable. -/
theorem forM_define_cases (labels : List Text) (a : Assembly) :
    ∃ b, (a.definable labels).forM define a = .ok () b ∧
      (labels.forM define a = .ok () b ∨
        ∃ mistake : Mistake, mistake.Local ∧
          labels.forM define a = .error ⟨a.line, mistake⟩ b) := by
  induction labels generalizing a with
  | nil => exact ⟨a, rfl, .inl rfl⟩
  | cons label labels ih =>
    obtain ⟨mid, hdefine⟩ | ⟨mistake, hlocal, hdefine⟩ := define_cases label a
    · obtain ⟨b, htaken, hrest⟩ := ih mid
      have hline : mid.line = a.line := by
        obtain ⟨-, -, rfl⟩ := define_eq_ok.1 hdefine
        rfl
      refine ⟨b, ?_, ?_⟩
      · simp only [definable, hdefine]
        exact forM_cons_eq_ok.2 ⟨mid, hdefine, htaken⟩
      · obtain hrest | ⟨mistake, hlocal, hrest⟩ := hrest
        · exact .inl (forM_cons_eq_ok.2 ⟨mid, hdefine, hrest⟩)
        · refine .inr ⟨mistake, hlocal, ?_⟩
          rw [← hline, ← hrest]
          exact forM_cons_of_ok hdefine
    · refine ⟨a, ?_, .inr ⟨mistake, hlocal, ?_⟩⟩
      · simp only [definable, hdefine]
        rfl
      · exact forM_cons_of_error hdefine

/-- The assembly with a statement behind the others. -/
def push (a : Assembly) (s : Statement) : Assembly :=
  { a with statements := a.statements.push s, size := a.size + s.bytes.length }

/-- `c` is `b`, or `b` with one more statement on its line and at its end. -/
def Pushes (b c : Assembly) : Prop :=
  c = b ∨ ∃ s : Statement, s.line = b.line ∧ s.offset = b.size ∧ c = b.push s

theorem Pushes.line_eq (h : Pushes b c) : c.line = b.line := by
  obtain rfl | ⟨s, -, -, rfl⟩ := h
  · rfl
  · rfl

theorem Pushes.labels_eq (h : Pushes b c) : c.labels = b.labels := by
  obtain rfl | ⟨s, -, -, rfl⟩ := h
  · rfl
  · rfl

/-- An instruction adds a statement unless its mnemonic is unknown. -/
theorem feedInstruction_cases (mnemonic operands : Text) (a : Assembly) :
    ∃ b, Pushes a b ∧ (feedInstruction mnemonic operands a = .ok () b ∨
      ∃ mistake : Mistake, mistake.Local ∧
        feedInstruction mnemonic operands a = .error ⟨a.line, mistake⟩ b) := by
  unfold feedInstruction
  cases Opcode.ofMnemonic? mnemonic with
  | none => exact ⟨a, .inl rfl, .inr ⟨.unknownInstruction mnemonic, trivial, rfl⟩⟩
  | some op =>
    cases hread : Argument.readAll op.layout operands with
    | mk arguments mistake =>
      refine ⟨_, .inr ⟨⟨a.line, a.size, op, arguments⟩, rfl, rfl, rfl⟩, ?_⟩
      simp only [hread]
      cases mistake with
      | none => exact .inl rfl
      | some mistake => exact .inr ⟨mistake, Argument.local_of_readAll hread, rfl⟩

theorem feed_eq (line : Text) (a : Assembly) :
    feed line a = ((SourceLine.parse line).labels.forM define >>= fun _ =>
      match (SourceLine.parse line).instruction with
      | none => pure ()
      | some (mnemonic, operands) => feedInstruction mnemonic operands) a.nextLine := rfl

/-- A line adds the labels of its own that are definable, and then one statement
    at most. It is accepted, or it is refused for a mistake of its own. -/
theorem feed_cases (line : Text) (a : Assembly) :
    ∃ b c, (a.nextLine.definable (SourceLine.parse line).labels).forM define a.nextLine =
        .ok () b ∧ Pushes b c ∧ (feed line a = .ok () c ∨
      ∃ mistake : Mistake, mistake.Local ∧ feed line a = .error ⟨a.line + 1, mistake⟩ c) := by
  obtain ⟨b, htaken, hlabels⟩ := forM_define_cases (SourceLine.parse line).labels a.nextLine
  have hfeed := feed_eq line a
  obtain hlabels | ⟨mistake, hlocal, hlabels⟩ := hlabels
  · rw [bind_of_ok hlabels] at hfeed
    cases hi : (SourceLine.parse line).instruction with
    | none =>
      rw [hi] at hfeed
      exact ⟨b, b, htaken, .inl rfl, .inl hfeed⟩
    | some i =>
      obtain ⟨mnemonic, operands⟩ := i
      rw [hi] at hfeed
      change feed line a = feedInstruction mnemonic operands b at hfeed
      obtain ⟨c, hpushes, houtcome⟩ := feedInstruction_cases mnemonic operands b
      have hline : b.line = a.line + 1 := (forM_define_eq_ok hlabels).1
      rw [hline, ← hfeed] at houtcome
      exact ⟨b, c, htaken, hpushes, houtcome⟩
  · rw [bind_of_error hlabels] at hfeed
    exact ⟨b, b, htaken, .inl rfl, .inr ⟨mistake, hlocal, hfeed⟩⟩

/-- The assembly after a line, accepted or refused. -/
def after (a : Assembly) (line : Text) : Assembly :=
  match feed line a with
  | .error _ b => b
  | .ok _ b => b

theorem after_of_eq_ok (h : feed line a = .ok () b) : a.after line = b := by
  rw [after, h]

theorem after_of_eq_error {e : SyntaxError} (h : feed line a = .error e b) :
    a.after line = b := by
  rw [after, h]

/-- A line is accepted, or it is refused for a mistake of its own. -/
theorem feed_outcome (line : Text) (a : Assembly) :
    feed line a = .ok () (a.after line) ∨ ∃ mistake : Mistake, mistake.Local ∧
      feed line a = .error ⟨a.line + 1, mistake⟩ (a.after line) := by
  obtain ⟨-, c, -, -, hok | ⟨mistake, hlocal, herror⟩⟩ := feed_cases line a
  · rw [after_of_eq_ok hok]
    exact .inl hok
  · rw [after_of_eq_error herror]
    exact .inr ⟨mistake, hlocal, herror⟩

theorem after_adds (line : Text) (a : Assembly) :
    ∃ b, (a.nextLine.definable (SourceLine.parse line).labels).forM define a.nextLine =
      .ok () b ∧ Pushes b (a.after line) := by
  obtain ⟨b, c, htaken, hpushes, hok | ⟨mistake, -, herror⟩⟩ := feed_cases line a
  · rw [after_of_eq_ok hok]
    exact ⟨b, htaken, hpushes⟩
  · rw [after_of_eq_error herror]
    exact ⟨b, htaken, hpushes⟩

theorem line_after (line : Text) (a : Assembly) : (a.after line).line = a.line + 1 := by
  obtain ⟨b, htaken, hpushes⟩ := after_adds line a
  rw [hpushes.line_eq]
  exact (forM_define_eq_ok htaken).1

/-! ## Growth -/

/-- `b` has all that `a` has, and what it has more comes later. -/
structure Grows (a b : Assembly) : Prop where
  size : a.size ≤ b.size
  bytes : a.bytes <+: b.bytes
  references : a.references <+: b.references
  labels : ∀ name address, a.labels.lookup name = some address →
    b.labels.lookup name = some address

/-- What is made statement by statement grows with the statements. -/
theorem Pushes.isPrefix (h : Pushes b c) (f : Statement → List α) :
    b.statements.toList.flatMap f <+: c.statements.toList.flatMap f := by
  obtain rfl | ⟨s, -, -, rfl⟩ := h
  · exact List.prefix_rfl
  · simp [push]

/-- The labels after a line: those from before, and the new ones at its offset. -/
theorem lookup_after (line : Text) (a : Assembly) (name : Text) (address : Nat) :
    (a.after line).labels.lookup name = some address ↔
      a.labels.lookup name = some address ∨
        name ∈ a.nextLine.definable (SourceLine.parse line).labels ∧ address = a.size := by
  obtain ⟨b, htaken, hpushes⟩ := after_adds line a
  obtain ⟨-, -, -, hlookup⟩ := forM_define_eq_ok htaken
  rw [hpushes.labels_eq]
  exact hlookup name address

theorem grows_after (line : Text) (a : Assembly) : Grows a (a.after line) := by
  obtain ⟨b, htaken, hpushes⟩ := after_adds line a
  obtain ⟨-, hstatements, hsize, -⟩ := forM_define_eq_ok htaken
  have hbytes := hpushes.isPrefix Statement.bytes
  have hreferences := hpushes.isPrefix Statement.references
  rw [hstatements] at hbytes hreferences
  refine ⟨?_, hbytes, hreferences, fun name address h => (lookup_after ..).2 (.inl h)⟩
  obtain heq | ⟨s, -, -, heq⟩ := hpushes
  · rw [heq, hsize]
    exact Nat.le_refl _
  · rw [heq, push, hsize]
    exact Nat.le_add_right _ _

/-! ## Taking many lines -/

/-- The assembly after lines, each of them accepted or refused. -/
def afterAll (a : Assembly) (lines : List Text) : Assembly :=
  lines.foldl after a

@[simp] theorem afterAll_concat (a : Assembly) (lines : List Text) (line : Text) :
    a.afterAll (lines ++ [line]) = (a.afterAll lines).after line := by
  simp [afterAll]

theorem line_afterAll (lines : List Text) : (empty.afterAll lines).line = lines.length := by
  induction lines using List.reverseRecOn with
  | nil => rfl
  | append_singleton lines line ih => simp [line_after, ih]

/-- Lines that are all accepted lead where they lead if some may be refused. -/
theorem afterAll_of_forM (h : lines.forM feed a = .ok () c) : a.afterAll lines = c := by
  induction lines generalizing a with
  | nil =>
    cases h
    rfl
  | cons line lines ih =>
    obtain ⟨b, hfeed, hrest⟩ := forM_cons_eq_ok.1 h
    change (a.after line).afterAll lines = c
    rw [after_of_eq_ok hfeed]
    exact ih hrest

/-- One of the lines defines the label, as the number of bytes that the lines
    before it have made. Any of the lines may be refused. -/
def Introduces (lines : List Text) (name : Text) (address : Nat) : Prop :=
  ∃ before line rest, lines = before ++ line :: rest ∧
    name ∈ (empty.afterAll before).nextLine.definable (SourceLine.parse line).labels ∧
    address = (empty.afterAll before).size

theorem introduces_concat (name : Text) (address : Nat) :
    Introduces (lines ++ [line]) name address ↔ Introduces lines name address ∨
      name ∈ (empty.afterAll lines).nextLine.definable (SourceLine.parse line).labels ∧
        address = (empty.afterAll lines).size := by
  constructor
  · rintro ⟨before, other, rest, hsplit, hname, haddress⟩
    obtain rfl | ⟨rest, last, rfl⟩ := List.eq_nil_or_concat rest
    · obtain ⟨rfl, hline⟩ := List.append_inj' hsplit rfl
      cases hline
      exact .inr ⟨hname, haddress⟩
    · rw [List.concat_eq_append, ← List.cons_append, ← List.append_assoc] at hsplit
      obtain ⟨rfl, -⟩ := List.append_inj' hsplit rfl
      exact .inl ⟨before, other, rest, rfl, hname, haddress⟩
  · rintro (⟨before, other, rest, rfl, hname, haddress⟩ | ⟨hname, haddress⟩)
    · exact ⟨before, other, rest ++ [line], by simp, hname, haddress⟩
    · exact ⟨lines, line, [], rfl, hname, haddress⟩

/-- The labels after lines are those that some line has defined. -/
theorem lookup_afterAll (lines : List Text) (name : Text) (address : Nat) :
    (empty.afterAll lines).labels.lookup name = some address ↔
      Introduces lines name address := by
  induction lines using List.reverseRecOn with
  | nil =>
    constructor
    · exact nofun
    · rintro ⟨before, line, rest, hnil, -⟩
      simp at hnil
  | append_singleton lines line ih =>
    rw [afterAll_concat, lookup_after, introduces_concat, ih]

end Assembly

end StackMachine
