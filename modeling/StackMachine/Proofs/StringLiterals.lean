-- SUMMARY: A string literal arrives on the stack or in a register with the bytes of its text.
import StackMachine.Proofs.Presentation
import StackMachine.Proofs.Subroutines
import StackMachine.Proofs.TrailingComments

/-!
# String literals

Between its quotes a literal may hold all that otherwise steers the reading of a line:
quotes of both kinds, semicolons, colons, percent and dollar signs, and white space at
both ends. One thing only ends it too early, a quote of its own kind with a comment
behind it. The bytes of its text are in the code, and the step that executes the code
puts them where the instruction says.
-/

namespace StackMachine

/-! ## Lines that end in a literal -/

namespace SourceLine

open Text (Blank Solid)

variable {q : Char} {s w pre cont : Text}

instance (q : Char) (s : Text) : Decidable (Enclosed q s) :=
  decidable_of_iff
    (∀ t ∈ s.tails, t.head? = some q → (Text.trimLeft t.tail).head? ≠ some ';') <| by
      constructor
      · exact fun h rest hrest => h (q :: rest) ((List.mem_tails _ _).2 hrest) rfl
      · intro h t ht hhead
        obtain ⟨rest, rfl⟩ := List.head?_eq_some_iff.1 hhead
        exact h rest ((List.mem_tails _ _).1 ht)

theorem endsLiteral_of_silent (h : Assembly.Silent cont) : endsLiteral cont = true := by
  obtain ⟨blanks, comment, rfl, hblanks, rfl | ⟨t, rfl⟩⟩ := h
  · rw [List.append_nil]
    exact endsLiteral_of_blank hblanks
  · rw [endsLiteral, Text.trimLeft_blank_append hblanks]
    rfl

/-- A line with a literal at its end is read as it stands, up to what is behind the
    literal. -/
theorem parse_literal (hw : Listing.Word w) (hpre : Clean pre) (hq : isQuote q = true)
    (hs : Enclosed q s) (hsolid : Solid (pre ++ (q :: s ++ [q]))) (hcont : Assembly.Silent cont) :
    parse (w ++ ' ' :: pre ++ (q :: s) ++ (q :: cont)) =
      ⟨[], some (w, pre ++ (q :: s ++ [q]))⟩ := by
  let line : Text := (w ++ ' ' :: pre) ++ (q :: s ++ [q])
  have hclean : Clean (w ++ ' ' :: pre) :=
    (clean_of_word hw).append (List.forall_mem_cons.2 ⟨by decide, hpre⟩)
  have hline : w ++ ' ' :: pre ++ (q :: s) ++ (q :: cont) = line ++ cont := by
    simp [line]
  have hne : q ≠ ';' := by
    rintro rfl
    cases hq
  have hclosed : unclosed none line = none := by
    rw [unclosed_append hclean, List.cons_append, unclosed, if_neg hne, if_pos hq,
      unclosed_literal rfl]
  have hstrip : stripComment line = w ++ ' ' :: (pre ++ (q :: s ++ [q])) := by
    rw [stripComment_append hclean, stripComment_literal hq hs, List.append_assoc,
      List.cons_append]
  have htext := Heads.nil.ofText_append hw.opens (.inr ⟨' ', pre ++ (q :: s ++ [q]), rfl, rfl⟩)
  rw [List.nil_append, hsolid.trim_cons rfl] at htext
  rw [hline, parse_append (endsLiteral_of_silent hcont) hclosed, parse_eq, hstrip, htext]

/-- The line that pushes the text `s`, with `cont` behind the literal. -/
def pushing (q : Char) (s cont : Text) : Text :=
  Opcode.pushString.mnemonic ++ [' '] ++ (q :: s) ++ (q :: cont)

/-- The line that puts the text `s` into a register, with `cont` behind the literal. -/
def setting (r : Register) (q : Char) (s cont : Text) : Text :=
  Opcode.setString.mnemonic ++ ' ' :: ('$' :: r.name ++ [' ']) ++ (q :: s) ++ (q :: cont)

example : setting (.general 1) '"' "it's".toList " ; B".toList =
    "SETSTR $B \"it's\" ; B".toList := by decide

section Literals

variable (hq : isQuote q = true) (hs : Enclosed q s) (hcont : Assembly.Silent cont)
include hq hs hcont

theorem parse_pushing :
    parse (pushing q s cont) = ⟨[], some (Opcode.pushString.mnemonic, q :: s ++ [q])⟩ := by
  have hliteral : Solid (q :: s ++ [q]) := Argument.IsLiteral.solid ⟨q, s, hq, rfl⟩
  have hpre : Clean [] := List.forall_mem_nil _
  have hparse := parse_literal (Listing.word_mnemonic .pushString) hpre hq hs hliteral hcont
  rw [pushing, hparse, List.nil_append]

theorem parse_setting (r : Register) :
    parse (setting r q s cont) =
      ⟨[], some (Opcode.setString.mnemonic, '$' :: r.name ++ ' ' :: (q :: s ++ [q]))⟩ := by
  have hname := Listing.word_name r
  have hregister : Text.IsWord ('$' :: r.name) :=
    ⟨List.cons_ne_nil _ _, List.forall_mem_cons.2 ⟨rfl, hname.isWord.2⟩⟩
  have hpre : Clean ('$' :: r.name ++ [' ']) :=
    Clean.append (List.forall_mem_cons.2 ⟨by decide, clean_of_word hname⟩) clean_space
  have hliteral : Solid (q :: s ++ [q]) := Argument.IsLiteral.solid ⟨q, s, hq, rfl⟩
  have hparse := parse_literal (Listing.word_mnemonic .setString) hpre hq hs
    (hregister.solid.append hliteral [' ']) hcont
  have hoperands : '$' :: r.name ++ [' '] ++ (q :: s ++ [q]) =
      '$' :: r.name ++ ' ' :: (q :: s ++ [q]) := by simp
  rw [setting, hparse, hoperands]

end Literals

end SourceLine

namespace Argument

open SourceLine (isQuote)

variable {q : Char}

/-- A literal is read as the bytes of its text, unless there are too many. -/
theorem readString_literal (hq : isQuote q = true) (s : Text) :
    readString (q :: s ++ [q]) =
      if (Utf8.encode s).length ≤ maxStringLength then
        .ok (.operand (.string (Utf8.encode s)))
      else .error .stringTooLong := by
  have hlast : (s ++ [q]).getLast? = some q := List.getLast?_concat
  have hliteral : literal? (q :: s ++ [q]) = some s := by
    rw [List.cons_append, literal?, if_pos ⟨hq, hlast⟩, List.dropLast_concat]
  rw [readString, hliteral]
  rfl

/-- The argument that a literal is, or the mistake. -/
theorem readAll_string (hq : isQuote q = true) (s : Text) :
    readAll .string (q :: s ++ [q]) =
      if (Utf8.encode s).length ≤ maxStringLength then
        ([.operand (.string (Utf8.encode s))], none)
      else ([], some .stringTooLong) := by
  change untilMistake [readString (q :: s ++ [q])] = _
  rw [readString_literal hq]
  split
  · rfl
  · rfl

theorem readAll_registerString (hq : isQuote q = true) (s : Text) (r : Register) :
    readAll .registerString ('$' :: r.name ++ ' ' :: (q :: s ++ [q])) =
      if (Utf8.encode s).length ≤ maxStringLength then
        ([.operand (.register r), .operand (.string (Utf8.encode s))], none)
      else ([.operand (.register r)], some .stringTooLong) := by
  have hword : Text.IsWord ('$' :: r.name) := by
    have hname := (Listing.word_name r).isWord
    exact ⟨List.cons_ne_nil _ _, List.forall_mem_cons.2 ⟨rfl, hname.2⟩⟩
  have hliteral : IsLiteral (q :: s ++ [q]) := ⟨q, s, hq, rfl⟩
  have hregister : read .register ('$' :: r.name) = .ok (.operand (.register r)) :=
    read_of_reads (.register (Register.ofName?_name r))
  rw [readAll, split_registerString hword hliteral.solid]
  change untilMistake [read .register ('$' :: r.name), readString (q :: s ++ [q])] = _
  rw [hregister, readString_literal hq]
  split
  · rfl
  · rfl

end Argument

/-! ## Code from lines -/

theorem Instruction.encode_pushString (b : Bytes) :
    (pushString b).encode = Opcode.pushString.byte :: (Bytes.ofLength b.length ++ b) := by
  simp [encode, opcode, operands, Operand.encode]

theorem Instruction.encode_setString (r : Register) (b : Bytes) :
    (setString r b).encode =
      Opcode.setString.byte :: r.byte :: (Bytes.ofLength b.length ++ b) := by
  simp [encode, opcode, operands, Operand.encode]

namespace Assembly

variable {a : Assembly} {line operands source : Text} {op : Opcode} {i : Instruction}
  {program : Bytes} {arguments : List Argument} {mistake : Mistake}

/-- The line is accepted, and it adds the code and nothing else. -/
def Emits (a : Assembly) (line : Text) (code : Bytes) : Prop :=
  ∃ b, feed line a = .ok () b ∧ b.bytes = a.bytes ++ code ∧ b.labels = a.labels ∧
    b.references = a.references

/-- The line is accepted wherever it stands, and what it makes is the code of the
    instruction. In a program, that is where the code of the lines before it ends. -/
structure Makes (line : Text) (i : Instruction) : Prop where
  emits : ∀ a : Assembly, a.Emits line i.encode
  program : ∀ source program a, assemble source = .ok program →
    Meets empty (Text.lines source) line a → i.encode <+: program.drop a.bytes.length

/-- A line with one instruction leaves a statement, and a mistake if its operands have
    one. -/
theorem feed_of_parse (hparse : SourceLine.parse line = ⟨[], some (op.mnemonic, operands)⟩)
    (a : Assembly) :
    feed line a =
      match Argument.readAll op.layout operands with
      | (arguments, none) => .ok () (a.nextLine.push ⟨a.line + 1, a.size, op, arguments⟩)
      | (arguments, some mistake) =>
        .error ⟨a.line + 1, mistake⟩ (a.nextLine.push ⟨a.line + 1, a.size, op, arguments⟩) := by
  rw [feed_eq, hparse]
  change feedInstruction op.mnemonic operands a.nextLine = _
  unfold feedInstruction
  rw [Opcode.ofMnemonic?_mnemonic]
  dsimp only
  cases Argument.readAll op.layout operands with
  | mk arguments mistake =>
    cases mistake with
    | none => rfl
    | some mistake => rfl

theorem exists_feed_eq_error
    (hparse : SourceLine.parse line = ⟨[], some (op.mnemonic, operands)⟩)
    (hread : Argument.readAll op.layout operands = (arguments, some mistake)) (a : Assembly) :
    ∃ b, feed line a = .error ⟨a.line + 1, mistake⟩ b := by
  have hfeed := feed_of_parse hparse a
  rw [hread] at hfeed
  exact ⟨_, hfeed⟩

variable (hparse : SourceLine.parse line = ⟨[], some (i.opcode.mnemonic, operands)⟩)
  (hread : Argument.readAll i.opcode.layout operands = (i.operands.map .operand, none))
include hparse hread

theorem emits_of_readAll (a : Assembly) : a.Emits line i.encode := by
  have hfeed := feed_of_parse hparse a
  rw [hread] at hfeed
  refine ⟨_, hfeed, ?_, rfl, ?_⟩
  · simp [bytes, push, nextLine, Statement.bytes, List.flatMap_map, Argument.bytes,
      Instruction.encode]
  · have hnone := referencesFrom_operands (a.line + 1) (a.size + 1) i.operands []
    rw [List.append_nil] at hnone
    simp [references, push, nextLine, Statement.references, hnone, Statement.referencesFrom]

theorem isPrefix_drop_of_meets (h : assemble source = .ok program)
    (hmeets : Meets empty (Text.lines source) line a) :
    i.encode <+: program.drop a.bytes.length := by
  obtain ⟨c, statements, entries, h⟩ := assembled_of_assemble h
  obtain ⟨before, after, _, rfl, htakes, hsize⟩ := h.takes.split_of_meets hmeets
  obtain ⟨earlier, later, hearlier, hlater, rfl⟩ := forall₂_append_left h.links
  have hoffset : a.bytes.length = (earlier.flatMap Entry.encode).length := by
    rw [length_of_links hearlier, ← sized_empty.of_meets hmeets, hsize]
    exact Nat.zero_add _
  cases htakes with
  | bare _ hnone _ _ =>
    rw [hparse] at hnone
    cases hnone
  | carrying _ hcarries _ _ =>
    obtain ⟨e, _, hlinks, -, rfl⟩ := List.forall₂_cons_left_iff.1 hlater
    obtain ⟨hinstruction, hopcode, harguments, -⟩ := hcarries
    rw [hparse] at hinstruction
    cases hinstruction
    rw [Opcode.ofMnemonic?_mnemonic] at hopcode
    have hoperands := hlinks.operands
    rw [← Option.some.inj hopcode, hread] at harguments
    rw [← (Prod.mk.inj harguments).1] at hoperands
    have hencode : e.encode = i.encode := by
      rw [Entry.encode, hlinks.opcode, ← Option.some.inj hopcode, stands_operands hoperands,
        Instruction.encode]
    rw [h.program_eq, List.flatMap_append, List.flatMap_cons, hoffset, List.drop_left, hencode]
    exact List.prefix_append _ _

theorem makes_of_readAll : Makes line i where
  emits := emits_of_readAll hparse hread
  program _ _ _ := isPrefix_drop_of_meets hparse hread

end Assembly

/-! ## Steps -/

namespace Machine

variable {program : Bytes} {capacity : Nat} {m : Machine} {b : Bytes}

section Steps

variable (hsize : program.length < 2 ^ 63) (hcap : capacity < 2 ^ 63)
include hsize hcap

/-- With room on the stack, the string is pushed, and nothing else changes. -/
theorem Bounded.step_pushString (hm : m.Bounded program capacity)
    (h : m.Executes (.pushString b)) (hroom : m.live.length < capacity) :
    ∃ m', m.step = .ok .running m' ∧ m'.stack? = some (m.live ++ [.bytes b]) ∧
      m' = { m with
        memory := m.memory.put m.height (.bytes b)
        registers := { m.registers with
          pc := m.registers.pc + .ofNat (Instruction.pushString b).encode.length
          sp := m.registers.sp + 1 }
        journal := m'.journal } := by
  have hstep := hm.step_of_executes hsize hcap h
    (Q := fun m' => m'.stack? = some (m.live ++ [.bytes b]) ∧ m' = { m with
      memory := m.memory.put m.height (.bytes b)
      registers := { m.registers with
        pc := m.registers.pc + .ofNat (Instruction.pushString b).encode.length
        sp := m.registers.sp + 1 }
      journal := m'.journal })
    (T := fun _ _ => False) ?_
  · obtain ⟨m', hstep, hm'⟩ | ⟨_, _, _, -, hfalse⟩ := hstep
    · exact ⟨m', hstep, hm'⟩
    · exact hfalse.elim
  · intro pc journal hpc hready
    have hlive : (m.goTo pc journal).live = m.live := rfl
    obtain ⟨hpushed, hpushedLive⟩ := hready.pushed hcap (by rw [hlive]; exact hroom) (.bytes b)
    change Action.wp (Action.push (.bytes b) >>= fun _ => pure none) _ _ _
    rw [Action.wp_bind, Action.wp_push_live hready, if_pos (by rw [hlive]; exact hroom)]
    refine ⟨rfl, ?_, ?_⟩
    · rw [hpushed.stack?_eq_live, hpushedLive, hlive]
    · rw [← Word.eq_add_ofNat hpc]
      rfl

/-- The string is put into the general register, and nothing else changes. -/
theorem Bounded.step_setString {i : Fin 10} (hm : m.Bounded program capacity)
    (h : m.Executes (.setString (.general i) b)) :
    ∃ journal, m.step = .ok .running { m with
      registers := { m.registers with
        general := m.registers.general.set i.val (.bytes b) i.isLt
        pc := m.registers.pc + .ofNat (Instruction.setString (.general i) b).encode.length }
      journal } := by
  have hstep := hm.step_of_executes hsize hcap h
    (Q := fun m' => ∃ journal, m' = { m with
      registers := { m.registers with
        general := m.registers.general.set i.val (.bytes b) i.isLt
        pc := m.registers.pc + .ofNat (Instruction.setString (.general i) b).encode.length }
      journal })
    (T := fun _ _ => False) ?_
  · obtain ⟨_, hstep, journal, rfl⟩ | ⟨_, _, _, -, hfalse⟩ := hstep
    · exact ⟨journal, hstep⟩
    · exact hfalse.elim
  · intro pc journal hpc _
    change Action.wp (Action.setRegister (.general i) (.bytes b) >>= fun _ => pure none) _ _ _
    rw [Action.wp_bind, Action.wp_setRegister_of_ne (by simp) (by simp)]
    refine ⟨rfl, journal, ?_⟩
    rw [← Word.eq_add_ofNat hpc]
    rfl

end Steps

end Machine

/-- String literals arrive as they are written. Take a literal whose text has no quote
    of the literal's kind with a comment behind it, and behind the literal nothing but
    white space and a comment. If the bytes of the text are not too many, `PUSHSTR` and
    `SETSTR` lines with it are accepted wherever they stand, and each makes the opcode,
    the register if there is one, the length in two bytes, and the bytes of the text.
    A step of a reachable machine that goes on, with this code at its program counter,
    pushes those bytes, given room on the stack, or puts them into the general register.
    It goes on behind the code, and nothing else changes. If the bytes are too many, the
    line is refused as such. -/
theorem literals_arrive {q : Char} {s cont : Text} (hq : SourceLine.isQuote q = true)
    (hs : SourceLine.Enclosed q s) (hcont : Assembly.Silent cont) :
    let text := Utf8.encode s
    let pushCode := Opcode.pushString.byte :: (Bytes.ofLength text.length ++ text)
    let setCode (r : Register) :=
      Opcode.setString.byte :: r.byte :: (Bytes.ofLength text.length ++ text)
    (Instruction.pushString text).encode = pushCode ∧
    (∀ r, (Instruction.setString r text).encode = setCode r) ∧
    (text.length ≤ maxStringLength →
      Assembly.Makes (SourceLine.pushing q s cont) (.pushString text) ∧
      (∀ r, Assembly.Makes (SourceLine.setting r q s cont) (.setString r text)) ∧
      ∀ program config m stack, program.length < 2 ^ 63 → config.stackSize < 2 ^ 63 →
        Machine.Reachable program config m → m.fault = none → m.exitCode = none →
        m.terminating = false → m.stack? = some stack →
        (pushCode <+: program.drop m.registers.pc.toInt.toNat →
          stack.length < config.stackSize → ∃ m', m.step = .ok .running m' ∧
            m'.stack? = some (stack ++ [.bytes text]) ∧ m' = { m with
              memory := m.memory.put stack.length (.bytes text)
              registers := { m.registers with
                pc := m.registers.pc + .ofNat pushCode.length
                sp := m.registers.sp + 1 }
              journal := m'.journal }) ∧
        ∀ i, setCode (.general i) <+: program.drop m.registers.pc.toInt.toNat →
          ∃ journal, m.step = .ok .running { m with
            registers := { m.registers with
              general := m.registers.general.set i.val (.bytes text) i.isLt
              pc := m.registers.pc + .ofNat (setCode (.general i)).length }
            journal }) ∧
    (maxStringLength < text.length → ∀ a : Assembly,
      (∃ b, Assembly.feed (SourceLine.pushing q s cont) a =
        .error ⟨a.line + 1, .stringTooLong⟩ b) ∧
      ∀ r, ∃ b, Assembly.feed (SourceLine.setting r q s cont) a =
        .error ⟨a.line + 1, .stringTooLong⟩ b) := by
  intro text pushCode setCode
  have hpushCode : (Instruction.pushString text).encode = pushCode :=
    Instruction.encode_pushString text
  have hsetCode (r : Register) : (Instruction.setString r text).encode = setCode r :=
    Instruction.encode_setString r text
  have hpush := SourceLine.parse_pushing hq hs hcont
  have hset (r : Register) := SourceLine.parse_setting hq hs hcont r
  refine ⟨hpushCode, hsetCode, fun hshort => ⟨?_, fun r => ?_, ?_⟩, fun hlong a => ⟨?_, fun r => ?_⟩⟩
  · exact Assembly.makes_of_readAll (i := .pushString text) hpush
      ((Argument.readAll_string hq s).trans (if_pos hshort))
  · exact Assembly.makes_of_readAll (i := .setString r text) (hset r)
      ((Argument.readAll_registerString hq s r).trans (if_pos hshort))
  · intro program config m stack hsize hstack hm hfault hexit hgo hlisted
    have hbounded := hm.bounded hsize hstack
    have hready : m.Ready program config.stackSize := ⟨hbounded.toInBounds, hfault, hexit⟩
    obtain rfl : stack = m.live := Option.some.inj (hlisted.symm.trans hbounded.stack?_eq_live)
    constructor
    · intro hcode hroom
      rw [← hpushCode] at hcode ⊢
      rw [hbounded.length_live]
      exact hbounded.step_pushString hsize hstack
        (hready.executes_of_isPrefix hsize hgo (.cons (.string hshort) .nil) hcode) hroom
    · intro i hcode
      rw [← hsetCode] at hcode ⊢
      exact hbounded.step_setString hsize hstack
        (hready.executes_of_isPrefix hsize hgo
          (.cons (.register _) (.cons (.string hshort) .nil)) hcode)
  · have hread := (Argument.readAll_string hq s).trans (if_neg (Nat.not_le.2 hlong))
    exact Assembly.exists_feed_eq_error hpush hread a
  · have hread := (Argument.readAll_registerString hq s r).trans (if_neg (Nat.not_le.2 hlong))
    exact Assembly.exists_feed_eq_error (hset r) hread a

/-- The text has quotes of both kinds, all the delimiters, and a blank at its end. -/
theorem literals_arrive_with_delimiters :
    let s := "\"hi\": it's; %A $b ".toList
    let line := SourceLine.pushing '"' s " ; \"".toList
    let program := (Instruction.pushString (Utf8.encode s)).encode
    let m := Machine.ofProgram program { stackSize := 1 }
    Assembly.Makes line (.pushString (Utf8.encode s)) ∧
      ∃ m', m.step = .ok .running m' ∧ m'.stack? = some [.bytes (Utf8.encode s)] := by
  intro s line program m
  have hcont : Assembly.Silent " ; \"".toList :=
    ⟨[' '], _, rfl, Text.blank_singleton rfl, .inr ⟨_, rfl⟩⟩
  have hshort : (Utf8.encode s).length ≤ maxStringLength := by decide
  obtain ⟨hcode, -, harrive, -⟩ := literals_arrive (q := '"') (s := s) rfl (by decide) hcont
  obtain ⟨hmakes, -, hsteps⟩ := harrive hshort
  obtain ⟨hpush, -⟩ := hsteps program { stackSize := 1 } m [] (by decide) (by decide) .fresh
    rfl rfl rfl rfl
  obtain ⟨m', hstep, hstack, -⟩ := hpush (by rw [← hcode]; exact List.prefix_rfl) (by decide)
  exact ⟨hmakes, m', hstep, hstack⟩

end StackMachine
