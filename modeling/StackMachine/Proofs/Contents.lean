-- SUMMARY: Lines assemble by their contents: labels, and an opcode with its arguments.
import StackMachine.Proofs.Resolution
import StackMachine.Proofs.Increments
import StackMachine.Proofs.Respelling

/-!
# Contents of lines

A line without a mistake of its own matters to an assembly by its content only: the labels,
the opcode and the arguments. So a source whose lines have been read once assembles by
their contents, in which there is no text left but the names of labels.
-/

namespace StackMachine

/-! ## Lines of a text -/

namespace Text

/-- The lines, each with a line feed behind it. -/
def ofLines (lines : List Text) : Text :=
  lines.flatMap (· ++ ['\n'])

/-- A text that can be a line: no line feed stands in it, and it does not end with a carriage
    return. -/
def IsLine (line : Text) : Prop :=
  '\n' ∉ line ∧ line.getLast? ≠ some '\r'

instance (line : Text) : Decidable line.IsLine :=
  inferInstanceAs (Decidable (_ ∧ _))

theorem isLine_append_word {s w : Text} (hs : '\n' ∉ s) (hw : Listing.Word w) :
    IsLine (s ++ w) := by
  refine ⟨fun hc => ?_, fun hlast => ?_⟩
  · obtain hc | hc := List.mem_append.1 hc
    · exact hs hc
    · exact hw.newline_not_mem hc
  · rw [List.getLast?_append_of_ne_nil s hw.1] at hlast
    cases hw.2 _ (List.mem_of_getLast? hlast)

theorem lines_ofLines {ts : List Text} (h : ∀ t ∈ ts, t.IsLine) : lines (ofLines ts) = ts := by
  induction ts with
  | nil => rfl
  | cons t ts ih =>
    obtain ⟨⟨hnewline, hreturn⟩, hrest⟩ := List.forall_mem_cons.1 h
    have hcut : cut (· = '\n') t = [t] := cut_eq_singleton fun c hc => by
      refine decide_eq_false ?_
      rintro rfl
      exact hnewline hc
    have hsplit : ofLines (t :: ts) = t ++ '\n' :: ofLines ts := by simp [ofLines]
    rw [hsplit, lines_append_cons, hcut, ih hrest, List.map_singleton, dropReturn, if_neg hreturn]
    rfl

end Text

/-! ## Contents -/

/-- What a line says: its labels, and the opcode and the arguments of its instruction. -/
structure Content where
  labels : List Text
  instruction : Option (Opcode × List Argument)
  deriving DecidableEq, Repr

namespace Content

/-- The content of a line, unless there is a mistake in its instruction. -/
def ofLine? (line : Text) : Option Content :=
  match SourceLine.parse line with
  | ⟨labels, none⟩ => some ⟨labels, none⟩
  | ⟨labels, some (mnemonic, operands)⟩ => do
    let op ← Opcode.ofMnemonic? mnemonic
    match Argument.readAll op.layout operands with
    | (arguments, none) => return ⟨labels, some (op, arguments)⟩
    | (_, some _) => none

/-- Take a line of this content. -/
def feed (c : Content) : Assembling Unit := do
  modify Assembly.nextLine
  c.labels.forM Assembly.define
  match c.instruction with
  | none => return
  | some (op, arguments) => Assembly.emit op arguments

variable {line : Text} {c : Content}

theorem feed_of_ofLine? (h : ofLine? line = some c) : Assembly.feed line = c.feed := by
  funext a
  rw [Assembly.feed_eq]
  unfold ofLine? at h
  cases hparse : SourceLine.parse line with
  | mk labels instruction =>
    rw [hparse] at h
    cases instruction with
    | none =>
      cases h
      rfl
    | some i =>
      obtain ⟨mnemonic, operands⟩ := i
      obtain ⟨op, hop, h⟩ := Option.bind_eq_some_iff.1 h
      split at h
      · rename_i arguments hread
        cases h
        have hemit : Assembly.feedInstruction mnemonic operands = Assembly.emit op arguments := by
          funext b
          simp only [Assembly.feedInstruction, hop, hread]
          rfl
        simp only [hemit]
        rfl
      · cases h

theorem forM_feed_of_mapM_ofLine? {lines : List Text} {contents : List Content}
    (h : lines.mapM ofLine? = some contents) :
    lines.forM Assembly.feed = contents.forM feed := by
  induction lines generalizing contents with
  | nil =>
    cases h
    rfl
  | cons line lines ih =>
    rw [List.mapM_cons] at h
    obtain ⟨c, hc, h⟩ := Option.bind_eq_some_iff.1 h
    obtain ⟨rest, hrest, h⟩ := Option.bind_eq_some_iff.1 h
    cases h
    change (Assembly.feed line >>= fun _ => lines.forM Assembly.feed) =
      c.feed >>= fun _ => rest.forM feed
    rw [feed_of_ofLine? hc, ih hrest]

/-- Assemble further lines of these contents. -/
def assembleFrom (a : Assembly) (contents : List Content) : Except SyntaxError Bytes :=
  match contents.forM feed a with
  | .ok () b => b.link
  | .error e _ => .error e

/-- A source without mistakes in its instructions assembles by the contents of its lines. -/
theorem assemble_eq {source : Text} {contents : List Content}
    (h : (Text.lines source).mapM ofLine? = some contents) :
    assemble source = assembleFrom .empty contents := by
  rw [assemble, Assembly.ofSource, forM_feed_of_mapM_ofLine? h]
  rfl

theorem assembleFrom_append {a b : Assembly} {front back : List Content}
    (h : front.forM feed a = .ok () b) :
    assembleFrom a (front ++ back) = assembleFrom b back := by
  rw [assembleFrom, Assembly.forM_append_of_ok h, assembleFrom]

theorem ofLine?_of_parse {labels : List Text} {op : Opcode} {operands : Text}
    {arguments : List Argument}
    (hparse : SourceLine.parse line = ⟨labels, some (op.mnemonic, operands)⟩)
    (hread : Argument.readAll op.layout operands = (arguments, none)) :
    ofLine? line = some ⟨labels, some (op, arguments)⟩ := by
  simp only [ofLine?, hparse, Opcode.ofMnemonic?_mnemonic, Option.bind_eq_bind, Option.bind_some,
    hread]
  rfl

/-- The line that pushes a number, with blanks in front. -/
theorem ofLine?_pushInt {blanks : Text} {n : Nat} (hblanks : blanks.Blank) (hn : Slot.Fits n) :
    ofLine? (blanks ++ (Opcode.pushInt.mnemonic ++ ' ' :: Decimal.ofNat n)) =
      some ⟨[], some (.pushInt, [.operand (.integer n)])⟩ := by
  have hword := Listing.word_mnemonic .pushInt
  have hnumber := Decimal.isWord_ofNat n
  have hclean : SourceLine.Clean
      (blanks ++ (Opcode.pushInt.mnemonic ++ ' ' :: Decimal.ofNat n)) :=
    (SourceLine.clean_of_blank hblanks).append <| (SourceLine.clean_of_word hword).append <|
      SourceLine.clean_space.append (SourceLine.clean_of_word (Listing.word_ofNat n))
  have hparse : SourceLine.parse (blanks ++ (Opcode.pushInt.mnemonic ++ ' ' :: Decimal.ofNat n)) =
      ⟨[], some (Opcode.pushInt.mnemonic, Decimal.ofNat n)⟩ := by
    have htext := SourceLine.Heads.nil.ofText_append hword.opens
      (.inr ⟨' ', Decimal.ofNat n, rfl, rfl⟩)
    rw [List.nil_append, hnumber.solid.trim_cons rfl] at htext
    rw [SourceLine.parse_eq, hclean.stripComment_eq, SourceLine.ofText_blank_append hblanks, htext]
  have hread : Argument.readAll .integer (Decimal.ofNat n) =
      ([.operand (.integer n)], none) := by
    have hwords := Text.words_eq_singleton hnumber.1 hnumber.2
    refine Argument.readAll_eq_none.2 ⟨[(.integer, Decimal.ofNat n)], ?_, ?_⟩
    · rw [Argument.split_of_not_string (by decide), hwords]
      rfl
    · exact .cons (.integer (Decimal.parse?_ofNat hn) hn) .nil
  exact ofLine?_of_parse hparse hread

end Content

end StackMachine
