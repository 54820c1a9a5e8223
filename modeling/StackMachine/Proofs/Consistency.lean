-- SUMMARY: An assembly stays consistent whatever lines it takes, and linking it fills its slots in place.
import StackMachine.Proofs.Placeholders
import StackMachine.Proofs.SourceText

/-!
# Consistency

An assembly may go on after a line that it has refused. Whatever lines it takes,
what it has is kept, each reference has a slot of zeros of its own among the
bytes, and linking writes in these slots only.
-/

namespace StackMachine

/-! ## Cutting behind a word -/

namespace Text

/-- What is left of a text behind its first bytes in UTF-8. Nothing is left if it
    has fewer bytes, or if the cut would go through a character. -/
def dropBytes? : Nat → Text → Option Text
  | 0, t => some t
  | _ + 1, [] => none
  | n + 1, c :: t =>
    if (Utf8.encode [c]).length ≤ n + 1 then dropBytes? (n + 1 - (Utf8.encode [c]).length) t
    else none

theorem dropBytes?_append (s t : Text) : dropBytes? (Utf8.encode s).length (s ++ t) = some t := by
  induction s with
  | nil => simp [Utf8.encode, dropBytes?]
  | cons c s ih =>
    have hcons : Utf8.encode (c :: s) = Utf8.encode [c] ++ Utf8.encode s := by
      simp [Utf8.encode]
    have hpos : 0 < (Utf8.encode [c]).length := by
      simp [Utf8.encode, Char.utf8Size_pos]
    rw [hcons, List.length_append, List.cons_append]
    obtain ⟨n, hn⟩ : ∃ n, (Utf8.encode [c]).length + (Utf8.encode s).length = n + 1 :=
      ⟨_, (Nat.succ_pred_eq_of_pos (by omega)).symm⟩
    rw [hn, dropBytes?, if_pos (by omega), ← hn, Nat.add_sub_cancel_left]
    exact ih

end Text

/-- The text behind the first operand begins at a character. -/
theorem SourceLine.dropBytes?_operands {line mnemonic operands word : Text}
    (h : (parse line).instruction = some (mnemonic, operands))
    (hword : (Text.words operands).head? = some word) :
    operands.dropBytes? (Utf8.encode word).length = some (operands.drop word.length) := by
  obtain ⟨-, -, rfl⟩ := splitInstruction_eq_some.1 h
  obtain ⟨rest, hrest, -⟩ := Text.trim_eq_of_head?_words hword
  rw [hrest, Text.dropBytes?_append, List.drop_left]

namespace Assembly

/-! ## Consistency -/

/-- Every reference has a slot of zeros of its own among the bytes. -/
structure Consistent (a : Assembly) : Prop where
  size_eq : a.size = a.bytes.length
  inside : ∀ r ∈ a.references, r.offset + Slot.width ≤ a.bytes.length
  blank : ∀ r ∈ a.references, (a.bytes.drop r.offset).take Slot.width = Slot.blank
  apart : a.references.Pairwise Reference.Before

theorem consistent_afterAll (lines : List Text) : (empty.afterAll lines).Consistent := by
  have hlaid := laid_afterAll lines
  have hslot : ∀ r ∈ (empty.afterAll lines).references, ∃ front back,
      (empty.afterAll lines).bytes = front ++ Slot.blank ++ back ∧ r.offset = front.length := by
    intro r hr
    obtain ⟨front, back, hbytes, hoffset⟩ := hlaid.exists_slot hr
    exact ⟨front, back, hbytes, hoffset.trans (Nat.zero_add _)⟩
  refine ⟨sized_afterAll lines, fun r hr => ?_, fun r hr => ?_, hlaid.pairwise⟩
  · obtain ⟨front, back, hbytes, hoffset⟩ := hslot r hr
    rw [hbytes, hoffset, List.length_append, List.length_append]
    exact Nat.le_add_right _ _
  · obtain ⟨front, back, hbytes, hoffset⟩ := hslot r hr
    rw [hbytes, hoffset, List.append_assoc, List.drop_left]
    rfl

/-- A line after any others is accepted or refused as the line that it is. Either
    way the assembly keeps the bytes, references and labels that it had. -/
theorem feed_afterAll (lines : List Text) (line : Text) :
    (feed line (empty.afterAll lines) = .ok () (empty.afterAll (lines ++ [line])) ∨
      ∃ mistake, feed line (empty.afterAll lines) =
        .error ⟨lines.length + 1, mistake⟩ (empty.afterAll (lines ++ [line]))) ∧
    Grows (empty.afterAll lines) (empty.afterAll (lines ++ [line])) := by
  rw [afterAll_concat]
  refine ⟨?_, grows_after line _⟩
  obtain hok | ⟨mistake, -, herror⟩ := feed_outcome line (empty.afterAll lines)
  · exact .inl hok
  · rw [line_afterAll] at herror
    exact .inr ⟨mistake, herror⟩

/-- Take any lines, accepted or refused. The cut behind the first operand of a
    line is always at a character, every further line is accepted or refused and
    leaves what was there, and every reference has a slot of zeros of its own.
    Linking writes the slots in place, each within the bytes, and changes nothing
    else; if the program is not too long for its addresses, it succeeds just if
    some line, accepted or refused, has defined the label of every reference. -/
theorem assembly_stays_consistent (lines : List Text) :
    (∀ line mnemonic operands word,
      (SourceLine.parse line).instruction = some (mnemonic, operands) →
      (Text.words operands).head? = some word →
      operands.dropBytes? (Utf8.encode word).length = some (operands.drop word.length)) ∧
    (∀ line,
      (feed line (empty.afterAll lines) = .ok () (empty.afterAll (lines ++ [line])) ∨
        ∃ mistake, feed line (empty.afterAll lines) =
          .error ⟨lines.length + 1, mistake⟩ (empty.afterAll (lines ++ [line]))) ∧
      Grows (empty.afterAll lines) (empty.afterAll (lines ++ [line]))) ∧
    (empty.afterAll lines).Consistent ∧
    (∀ name address, (empty.afterAll lines).labels.lookup name = some address ↔
      Introduces lines name address) ∧
    fill? (empty.afterAll lines).labels (empty.afterAll lines).references
      (empty.afterAll lines).bytes = some (empty.afterAll lines).link ∧
    ((empty.afterAll lines).bytes.length < 2 ^ 55 →
      ((∃ program, (empty.afterAll lines).link = .ok program) ↔
        ∀ r ∈ (empty.afterAll lines).references, ∃ address, Introduces lines r.label address)) ∧
    (∀ program, (empty.afterAll lines).link = .ok program →
      program.length = (empty.afterAll lines).bytes.length ∧
      ∀ i, (∀ r ∈ (empty.afterAll lines).references,
          i < r.offset ∨ r.offset + Slot.width ≤ i) →
        program[i]? = (empty.afterAll lines).bytes[i]?) := by
  have hconsistent := consistent_afterAll lines
  have hfill := fill?_afterAll lines
  refine ⟨fun _ _ _ _ h => SourceLine.dropBytes?_operands h, feed_afterAll lines, hconsistent,
    lookup_afterAll lines, hfill, fun hsmall => ?_, fun program hprogram => ?_⟩
  · rw [← hconsistent.size_eq] at hsmall
    rw [ok_iff_of_fill? hfill]
    refine forall₂_congr fun r _ => ?_
    rw [slot_eq_ok_iff fun _ _ => fits_afterAll hsmall]
    exact exists_congr fun address => lookup_afterAll ..
  · apply agree_of_fill?
    rw [hfill]
    exact congrArg some hprogram

/-- The second line is refused for its mnemonic, and its label is defined. -/
example : (empty.afterAll ["JMP %end".toList, "end: STOP".toList]).link =
    .ok [15, 18, 0, 0, 0, 0, 0, 0, 0] := by
  decide +kernel

end Assembly

end StackMachine
