-- SUMMARY: What the lines of a listing show: an offset, a mnemonic and operands.
import Mathlib.Data.List.Forall2
import StackMachine.Listing
import StackMachine.Proofs.Numerals

/-!
# Listing lines

A line of a listing is said by its parts: the numeral of the offset, the mnemonic and
the texts of the operands, and each of these by what it stands for. The printed lines
are such lines.
-/

namespace StackMachine

/-! ## Quoted texts -/

namespace Quoted

/-- The characters that are written as a backslash and another character. -/
def shortEscapes : List (Char × Char) :=
  [('\x00', '0'), ('\t', 't'), ('\n', 'n'), ('\r', 'r'), ('"', '"'), ('\\', '\\')]

/-- How a character is written between double quotes. -/
inductive Spells : Char → Text → Prop
  | itself {c : Char} (printable : Text.isPrintable c = true)
      (long : ∀ d, (c, d) ∉ shortEscapes) : Spells c [c]
  | short {c d : Char} (escape : (c, d) ∈ shortEscapes) : Spells c ['\\', d]
  | codePoint {c : Char} {digits : Text} (unprintable : Text.isPrintable c = false)
      (long : ∀ d, (c, d) ∉ shortEscapes) (number : Numeral 16 1 c.toNat digits) :
      Spells c ('\\' :: 'u' :: '\x7b' :: (digits ++ ['\x7d']))

/-- The text is a literal: between double quotes, what is written for each character
    of the contents. -/
def Literal (contents t : Text) : Prop :=
  ∃ pieces, List.Forall₂ Spells contents pieces ∧ t = '"' :: (pieces.flatten ++ ['"'])

theorem spells_escape (c : Char) : Spells c (escape c) := by
  unfold escape
  split
  · exact .short (by decide)
  · exact .short (by decide)
  · exact .short (by decide)
  · exact .short (by decide)
  · exact .short (by decide)
  · exact .short (by decide)
  · have hlong : ∀ d, (c, d) ∉ shortEscapes := fun d hd => by
      simp only [shortEscapes, List.mem_cons, Prod.mk.injEq, List.not_mem_nil] at hd
      grind
    split
    · rename_i hprintable
      exact .itself hprintable hlong
    · rename_i hunprintable
      exact .codePoint (Bool.eq_false_iff.2 hunprintable) hlong
        (Hex.numeral_digits (Nat.le_refl 1) c.toNat)

theorem literal_encode (t : Text) : Literal t (encode t) := by
  refine ⟨t.map escape, ?_, rfl⟩
  rw [List.forall₂_map_right_iff, List.forall₂_same]
  exact fun c _ => spells_escape c

end Quoted

/-! ## Operands -/

/-- What a listing shows for an operand: a number in decimal, a register by its name in
    upper case behind `$`, and a string as the literal of the text that it decodes to. -/
inductive Operand.Shown : Operand → Text → Prop
  | exitCode {code : UInt8} {t : Text} (number : Numeral 10 1 code.toNat t) :
      Shown (.exitCode code) t
  | register {r : Register} {name : Text} (named : Register.ofName? name = some r)
      (upper : ∀ c ∈ name, c.isUpper = true) : Shown (.register r) ('$' :: name)
  | integer {v : Int} {t : Text} (number : Decimal.Spells v t) : Shown (.integer v) t
  | string {b : Bytes} {t : Text} (literal : Quoted.Literal (Utf8.decodeLossy b) t) :
      Shown (.string b) t

theorem Register.isUpper_of_mem_name (r : Register) : ∀ c ∈ r.name, c.isUpper = true := by
  have hall : r.name.all Char.isUpper := by
    cases r with
    | general i => revert i; decide
    | pc | sp | fp | rt => decide
  exact List.all_eq_true.1 hall

theorem Operand.shown_render (o : Operand) : o.Shown o.render := by
  cases o with
  | exitCode code => exact .exitCode (Decimal.numeral_ofNat _)
  | register r => exact .register (Register.ofName?_name r) r.isUpper_of_mem_name
  | integer v => exact .integer (Decimal.spells_ofInt v)
  | string b => exact .string (Quoted.literal_encode _)

/-! ## Lines -/

/-- Texts one after the other, with the separator before all but the first. -/
theorem Text.intercalate_cons (separator t : Text) (ts : List Text) :
    separator.intercalate (t :: ts) = t ++ ts.flatMap (separator ++ ·) := by
  induction ts generalizing t with
  | nil => rw [List.intercalate_singleton, List.flatMap_nil, List.append_nil]
  | cons u ts ih =>
    rw [List.intercalate_cons_cons, ih, List.flatMap_cons, List.append_assoc, List.append_assoc]

namespace Entry

/-- The line of an instruction: the numeral of its offset in four digits or more, a
    colon and a space, the mnemonic, and each operand behind a space. -/
def Shown (e : Entry) (line : Text) : Prop :=
  ∃ offset operands, Numeral 10 4 e.offset offset ∧
    List.Forall₂ Operand.Shown e.operands operands ∧
    line = offset ++ ':' :: ' ' :: (e.opcode.mnemonic ++ operands.flatMap (' ' :: ·))

theorem shown_render (e : Entry) : e.Shown e.render := by
  refine ⟨Decimal.padded e.offset, e.operands.map Operand.render,
    Decimal.numeral_padded e.offset, ?_, ?_⟩
  · rw [List.forall₂_map_right_iff, List.forall₂_same]
    exact fun o _ => o.shown_render
  · rw [render, Text.intercalate_cons, List.append_assoc]
    rfl

end Entry

end StackMachine
