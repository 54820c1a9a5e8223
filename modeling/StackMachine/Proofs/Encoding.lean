-- SUMMARY: Instructions that are written end to end are read back one for one.
import Mathlib.Data.List.Forall2
import StackMachine.Proofs.Slots
import StackMachine.Proofs.Tiling

/-!
# Encoded instructions

An instruction is encoded as its opcode byte and its operands one after the
other. Reading at the place where it begins gives it back, whatever follows it,
if each operand is of the kind that the layout asks for. A program that is made
of such instructions has them as its listing.
-/

namespace StackMachine

/-- An operand that can be encoded where the layout has the kind. -/
inductive Operand.OfKind : OperandKind → Operand → Prop
  | exitCode (code : UInt8) : OfKind .exitCode (.exitCode code)
  | register (r : Register) : OfKind .register (.register r)
  | integer {v : Int} (h : Slot.Fits v) : OfKind .integer (.integer v)
  | address {v : Int} (h : Slot.Fits v) : OfKind .address (.integer v)
  | string {b : Bytes} (h : b.length ≤ maxStringLength) : OfKind .string (.string b)

namespace Entry

/-- The bytes of an instruction in a program. -/
def encode (e : Entry) : Bytes :=
  e.opcode.byte :: e.operands.flatMap Operand.encode

/-- The operands are those of the opcode's layout. -/
def WellFormed (e : Entry) : Prop :=
  List.Forall₂ Operand.OfKind e.opcode.layout.kinds e.operands

theorem width_eq (e : Entry) : e.width = e.encode.length := by
  rw [width, encode, List.length_cons, List.length_flatMap, Nat.add_comm]
  rfl

end Entry

namespace Place

variable {offset : Nat} {rest : Bytes}

/-! ## Reading back -/

theorem bytes?_append (b : Bytes) :
    bytes? ⟨offset, b ++ rest⟩ b.length = .ok (b, ⟨offset + b.length, rest⟩) := by
  rw [bytes?_of_le (by rw [List.length_append]; exact Nat.le_add_right _ _)]
  simp only [List.take_left, skip, List.drop_left]

theorem opcode?_byte (op : Opcode) :
    opcode? ⟨offset, op.byte :: rest⟩ = .ok (op, ⟨offset + 1, rest⟩) := by
  unfold opcode? byte?
  simp only [bind, Except.bind, Opcode.ofByte?_byte, skip, List.drop_succ_cons,
    List.drop_zero]

theorem register?_byte (r : Register) :
    register? ⟨offset, r.byte :: rest⟩ = .ok (.register r, ⟨offset + 1, rest⟩) := by
  unfold register? byte?
  simp only [bind, Except.bind, Register.ofByte?_byte, skip, List.drop_succ_cons, List.drop_zero]

theorem integer?_encode {v : Int} (h : Slot.Fits v) :
    integer? ⟨offset, Slot.encode v ++ rest⟩ =
      .ok (.integer v, ⟨offset + Slot.width, rest⟩) := by
  have hslot := @bytes?_append offset rest (Slot.encode v)
  rw [Slot.length_encode] at hslot
  unfold integer?
  rw [hslot]
  simp only [bind, Except.bind, Slot.decode?_encode h]

theorem string?_encode {b : Bytes} (h : b.length ≤ maxStringLength) :
    string? ⟨offset, Bytes.ofLength b.length ++ b ++ rest⟩ =
      .ok (.string b, ⟨offset + 2 + b.length, rest⟩) := by
  have hsmall : b.length < 65536 := Nat.lt_of_le_of_lt h (by decide)
  have hlength : length? ⟨offset, Bytes.ofLength b.length ++ b ++ rest⟩ =
      .ok (b.length, ⟨offset + 2, b ++ rest⟩) := by
    change Except.ok (Bytes.toLength _ _, Place.mk (offset + 2) (b ++ rest)) = _
    rw [Bytes.toLength_ofLength hsmall]
  unfold string?
  rw [hlength]
  change (if b.length > maxStringLength then _ else _ : Except Malformation (Operand × Place)) = _
  rw [if_neg (Nat.not_lt.2 h), bytes?_append]
  rfl

theorem operand?_encode {kind : OperandKind} {o : Operand} (h : o.OfKind kind) :
    operand? ⟨offset, o.encode ++ rest⟩ kind = .ok (o, ⟨offset + o.width, rest⟩) := by
  cases h with
  | exitCode code => rfl
  | register r => exact register?_byte r
  | integer hfits | address hfits =>
    rw [Operand.width, Operand.encode, Slot.length_encode]
    exact integer?_encode hfits
  | @string b hlen =>
    have hwidth : (Operand.string b).width = 2 + b.length := by
      rw [Operand.width, Operand.encode, List.length_append]
      rfl
    rw [hwidth, ← Nat.add_assoc]
    exact string?_encode hlen

theorem operands?_encode {kinds : List OperandKind} {operands : List Operand}
    (h : List.Forall₂ Operand.OfKind kinds operands) :
    operands? ⟨offset, operands.flatMap Operand.encode ++ rest⟩ kinds =
      .ok (operands, ⟨offset + (operands.map Operand.width).sum, rest⟩) := by
  induction h generalizing offset with
  | nil => rfl
  | @cons kind o kinds operands ho _ ih =>
    rw [List.flatMap_cons, List.append_assoc, operands?, operand?_encode ho]
    change (operands? ⟨offset + o.width, _⟩ kinds >>= _) = _
    rw [ih, List.map_cons, List.sum_cons, ← Nat.add_assoc]
    rfl

end Place

theorem Entry.read?_encode {e : Entry} (h : e.WellFormed) (rest : Bytes) :
    Entry.read? ⟨e.offset, e.encode ++ rest⟩ = .ok (e, ⟨e.offset + e.width, rest⟩) := by
  unfold Entry.read?
  rw [Entry.encode, List.cons_append, Place.opcode?_byte]
  change (Place.operands? ⟨e.offset + 1, _⟩ e.opcode.layout.kinds >>= _) = _
  rw [Place.operands?_encode h, Entry.width, ← Nat.add_assoc]
  rfl

namespace Listing

theorem entriesFrom?_encode {start stop bound : Nat} {entries : List Entry}
    (htiles : Tiles start entries stop) (hforms : ∀ e ∈ entries, e.WellFormed)
    (hbound : (entries.flatMap Entry.encode).length ≤ bound) :
    entriesFrom? bound ⟨start, entries.flatMap Entry.encode⟩ = .ok entries := by
  induction entries generalizing start bound with
  | nil =>
    cases bound with
    | zero => rfl
    | succ bound => rfl
  | cons e entries ih =>
    obtain ⟨rfl, htiles⟩ := htiles
    rw [List.flatMap_cons, List.length_append, ← e.width_eq, Entry.width] at hbound
    -- The opcode alone is a byte, so the bound allows for one more instruction.
    obtain ⟨bound, rfl⟩ : ∃ n, bound = n + 1 := ⟨bound - 1, by omega⟩
    have hrest : entriesFrom? bound ⟨e.offset + e.width, entries.flatMap Entry.encode⟩ =
        .ok entries :=
      ih htiles (fun e' he' => hforms e' (List.mem_cons_of_mem e he')) (by omega)
    have hread := Entry.read?_encode (hforms e List.mem_cons_self)
      (entries.flatMap Entry.encode)
    rw [entriesFrom?, List.flatMap_cons, if_neg (by simp [Entry.encode]), hread]
    change (entriesFrom? bound ⟨e.offset + e.width, _⟩ >>= _) = _
    rw [hrest]
    rfl

/-- A program made of instructions has them as its listing. -/
theorem entries?_encode {stop : Nat} {entries : List Entry} (htiles : Tiles 0 entries stop)
    (hforms : ∀ e ∈ entries, e.WellFormed) :
    entries? (entries.flatMap Entry.encode) = .ok entries :=
  entriesFrom?_encode htiles hforms (Nat.le_refl _)

end Listing

end StackMachine
