-- SUMMARY: A program is its listing encoded again, up to the choice of its integer slots.
import StackMachine.Proofs.References
import StackMachine.Proofs.RoundTrip

/-!
# Spellings

Most bytes of a program are determined by its listing. Only an integer has
several slots that decode to it, and `Slot.encode` gives one of them. Encoding the
instructions of a listing puts that slot in the place of each, and changes no
other byte of the program.
-/

namespace StackMachine

/-! ## Slots -/

/-- The slot of an operand that begins at the offset: where it is and what it
    decodes to. -/
def Operand.slots (offset : Nat) : Operand → List (Nat × Int)
  | integer v => [(offset, v)]
  | _ => []

/-- The slots of operands that lie end to end from the offset on. -/
def Operand.slotsFrom : (offset : Nat) → List Operand → List (Nat × Int)
  | _, [] => []
  | offset, o :: operands => o.slots offset ++ slotsFrom (offset + o.width) operands

/-- The slots of an instruction. -/
def Entry.slots (e : Entry) : List (Nat × Int) :=
  Operand.slotsFrom (e.offset + 1) e.operands

/-- The slots of a listing. -/
def Listing.slots (entries : List Entry) : List (Nat × Int) :=
  entries.flatMap Entry.slots

/-- The offset lies in one of the slots. -/
def InSlots (slots : List (Nat × Int)) (i : Nat) : Prop :=
  ∃ s ∈ slots, s.1 ≤ i ∧ i < s.1 + Slot.width

theorem InSlots.append_left {slots : List (Nat × Int)} {i : Nat} (h : InSlots slots i)
    (slots' : List (Nat × Int)) : InSlots (slots ++ slots') i := by
  obtain ⟨s, hs, hi⟩ := h
  exact ⟨s, List.mem_append_left slots' hs, hi⟩

theorem InSlots.append_right {slots' : List (Nat × Int)} {i : Nat} (h : InSlots slots' i)
    (slots : List (Nat × Int)) : InSlots (slots ++ slots') i := by
  obtain ⟨s, hs, hi⟩ := h
  exact ⟨s, List.mem_append_right slots hs, hi⟩

/-- The byte strings agree but for the slots, which decode to their integers in
    the first and are the encodings of them in the second. Both begin at the
    offset `start`. -/
structure Respells (start : Nat) (slots : List (Nat × Int)) (b b' : Bytes) : Prop where
  agree : Assembly.AgreeExcept (InSlots slots) start b b'
  slot : ∀ s ∈ slots, ∃ i, s.1 = start + i ∧ i + Slot.width ≤ b.length ∧
    Slot.decode? ((b.drop i).take Slot.width) = some s.2 ∧
      (b'.drop i).take Slot.width = Slot.encode s.2

namespace Respells

variable {start : Nat} {slots slots' : List (Nat × Int)} {b b' c c' : Bytes}

theorem length_eq (h : Respells start slots b b') : b'.length = b.length :=
  h.agree.1.symm

theorem refl (start : Nat) (b : Bytes) : Respells start [] b b where
  agree := .refl _ start b
  slot _ hs := nomatch hs

theorem integer {slot : Bytes} {v : Int} (start : Nat) (hlen : slot.length = Slot.width)
    (hv : Slot.decode? slot = some v) :
    Respells start [(start, v)] slot (Slot.encode v) where
  agree := by
    refine ⟨hlen.trans (Slot.length_encode v).symm, fun i hi => ?_⟩
    have hge : Slot.width ≤ i := Nat.le_of_not_lt fun hlt =>
      hi ⟨_, List.mem_singleton_self _, Nat.le_add_right start i, Nat.add_lt_add_left hlt start⟩
    rw [List.getElem?_eq_none (hlen.le.trans hge),
      List.getElem?_eq_none ((Slot.length_encode v).le.trans hge)]
  slot s hs := by
    obtain rfl := List.mem_singleton.1 hs
    refine ⟨0, rfl, by omega, ?_, ?_⟩
    · rwa [List.drop_zero, ← hlen, List.take_length]
    · rw [List.drop_zero, ← Slot.length_encode v, List.take_length]

theorem take_drop_append {i n : Nat} (h : i + n ≤ b.length) (c : Bytes) :
    ((b ++ c).drop i).take n = (b.drop i).take n := by
  have hlength : n ≤ (b.drop i).length := by
    rw [List.length_drop]
    omega
  rw [List.drop_append_of_le_length (by omega), List.take_append_of_le_length hlength]

/-- Byte strings that stand end to end. -/
theorem append (h : Respells start slots b b') (hc : Respells (start + b.length) slots' c c') :
    Respells start (slots ++ slots') (b ++ c) (b' ++ c') where
  agree := (h.agree.mono fun _ hi => hi.append_left slots').append
    (hc.agree.mono fun _ hi => hi.append_right slots)
  slot s hs := by
    rcases List.mem_append.1 hs with hs | hs
    · obtain ⟨i, hoffset, hle, hv, hencode⟩ := h.slot s hs
      refine ⟨i, hoffset, ?_, ?_, ?_⟩
      · rw [List.length_append]
        omega
      · rwa [take_drop_append hle]
      · rwa [take_drop_append (h.length_eq.symm ▸ hle)]
    · obtain ⟨i, hoffset, hle, hv, hencode⟩ := hc.slot s hs
      refine ⟨b.length + i, by omega, ?_, ?_, ?_⟩
      · rw [List.length_append]
        omega
      · rwa [List.drop_length_add_append]
      · rwa [← h.length_eq, List.drop_length_add_append]

/-- A byte outside the slots is the same in both. -/
theorem getElem?_eq (h : Respells 0 slots b b') {i : Nat}
    (hi : ∀ offset v, (offset, v) ∈ slots → i < offset ∨ offset + Slot.width ≤ i) :
    b'[i]? = b[i]? := by
  refine (h.agree.2 i ?_).symm
  rw [Nat.zero_add]
  rintro ⟨⟨offset, v⟩, hs, hlow, hhigh⟩
  rcases hi offset v hs with hbefore | hafter
  · exact Nat.not_le_of_lt hbefore hlow
  · exact Nat.not_le_of_lt hhigh hafter

/-- Nothing changes if the slots were the encodings of their integers before. -/
theorem eq_of_slots (h : Respells 0 slots b b')
    (hslots : ∀ s ∈ slots, (b.drop s.1).take Slot.width = Slot.encode s.2) : b' = b := by
  refine List.ext_getElem? fun i => ?_
  by_cases hi : InSlots slots (0 + i)
  · obtain ⟨s, hs, hle, hlt⟩ := hi
    obtain ⟨j, hoffset, -, -, hencode⟩ := h.slot s hs
    obtain rfl : s.1 = j := by omega
    have hin : i - s.1 < Slot.width := by omega
    have heq := congrArg (·[i - s.1]?) (hencode.trans (hslots s hs).symm)
    simp only [List.getElem?_take_of_lt hin, List.getElem?_drop] at heq
    rwa [Nat.add_sub_cancel' (by omega)] at heq
  · exact (h.agree.2 i hi).symm

end Respells

/-! ## Reading -/

namespace Bytes

theorem ofLength_toLength (high low : UInt8) :
    ofLength (toLength high low) = [high, low] := by
  have hhigh : high.toNat < 256 := high.toNat_lt
  have hlow : low.toNat < 256 := low.toNat_lt
  have hdiv : (high.toNat * 256 + low.toNat) / 256 = high.toNat := by omega
  have hmod : (high.toNat * 256 + low.toNat).toUInt8 = low := by
    apply UInt8.toNat_inj.1
    rw [Nat.toUInt8_eq, UInt8.toNat_ofNat']
    omega
  simp [ofLength, toLength, hdiv, hmod]

end Bytes

namespace Place

variable {p next : Place}

theorem rest_of_bytes? {n : Nat} {bytes : Bytes} (h : p.bytes? n = .ok (bytes, next)) :
    p.rest = bytes ++ next.rest := by
  obtain ⟨-, rfl, rfl⟩ := bytes?_eq_ok h
  exact (List.take_append_drop n p.rest).symm

/-- What is read as an operand of the kind is spelled as one. -/
theorem spelled_of_operand? {kind : OperandKind} {o : Operand}
    (h : p.operand? kind = .ok (o, next)) :
    o.OfKind kind ∧ ∃ b, p.rest = b ++ next.rest ∧
      Respells p.offset (o.slots p.offset) b o.encode := by
  cases reads_of_operand? h with
  | @exitCode b byte => exact ⟨.exitCode b, [b], (byte?_eq_ok byte).1, .refl _ _⟩
  | @register r byte => exact ⟨.register r, [r.byte], (byte?_eq_ok byte).1, .refl _ _⟩
  | integer bytes value =>
    have hlen := (advances_bytes? bytes).1
    exact ⟨.integer (Slot.fits_of_decode? hlen value), _, rest_of_bytes? bytes,
      .integer _ hlen value⟩
  | address bytes value =>
    have hlen := (advances_bytes? bytes).1
    exact ⟨.address (Slot.fits_of_decode? hlen value), _, rest_of_bytes? bytes,
      .integer _ hlen value⟩
  | @string high low _ _ b first second bytes short =>
    have hlen := (advances_bytes? bytes).1
    refine ⟨.string (hlen.le.trans short), high :: low :: b, ?_, ?_⟩
    · rw [(byte?_eq_ok first).1, (byte?_eq_ok second).1, rest_of_bytes? bytes]
      rfl
    · have hencode : (Operand.string b).encode = high :: low :: b := by
        rw [Operand.encode, hlen, Bytes.ofLength_toLength]
        rfl
      rw [hencode]
      exact .refl _ _

theorem spelled_of_operands? {kinds : List OperandKind} {operands : List Operand}
    (h : p.operands? kinds = .ok (operands, next)) :
    List.Forall₂ Operand.OfKind kinds operands ∧ ∃ b, p.rest = b ++ next.rest ∧
      Respells p.offset (Operand.slotsFrom p.offset operands) b
        (operands.flatMap Operand.encode) := by
  induction kinds generalizing p operands with
  | nil =>
    cases h
    exact ⟨.nil, [], rfl, .refl _ _⟩
  | cons kind kinds ih =>
    obtain ⟨o, mid, ho, h⟩ := bind_eq_ok h
    obtain ⟨operands, stop, hrest, h⟩ := bind_eq_ok h
    cases h
    obtain ⟨hkind, b, hb, hspelled⟩ := spelled_of_operand? ho
    obtain ⟨hkinds, c, hc, hspelled'⟩ := ih hrest
    refine ⟨.cons hkind hkinds, b ++ c, by rw [hb, hc, List.append_assoc], ?_⟩
    have hwidth : o.width = b.length := hspelled.length_eq
    rw [(advances_operand? ho).offset_eq] at hspelled'
    rw [Operand.slotsFrom, List.flatMap_cons]
    refine hspelled.append ?_
    rwa [← hwidth]

end Place

theorem Entry.spelled_of_read? {p next : Place} {e : Entry} (h : Entry.read? p = .ok (e, next)) :
    e.WellFormed ∧ ∃ b, p.rest = b ++ next.rest ∧ Respells p.offset e.slots b e.encode := by
  obtain ⟨op, mid, hop, h⟩ := Place.bind_eq_ok h
  obtain ⟨operands, stop, hoperands, h⟩ := Place.bind_eq_ok h
  cases h
  obtain ⟨hkinds, c, hc, hspelled⟩ := Place.spelled_of_operands? hoperands
  obtain ⟨b, after, hb, hop⟩ := Place.bind_eq_ok hop
  dsimp only at hop
  split at hop
  · rename_i op' hbyte
    cases hop
    obtain rfl := Opcode.byte_of_ofByte? hbyte
    rw [(Place.advances_byte? hb).offset_eq] at hspelled
    refine ⟨hkinds, [op.byte] ++ c, ?_, ?_⟩
    · rw [(Place.byte?_eq_ok hb).1, hc]
      rfl
    · exact (Respells.refl p.offset [op.byte]).append hspelled
  · cases hop

namespace Listing

theorem spelled_of_entriesFrom? {bound : Nat} {p : Place} {entries : List Entry}
    (hbound : p.rest.length ≤ bound) (h : entriesFrom? bound p = .ok entries) :
    (∀ e ∈ entries, e.WellFormed) ∧
      Respells p.offset (slots entries) p.rest (entries.flatMap Entry.encode) := by
  refine induction_entriesFrom? (P := fun p entries => (∀ e ∈ entries, e.WellFormed) ∧
    Respells p.offset (slots entries) p.rest (entries.flatMap Entry.encode))
    (fun p hrest => ?_) (fun p e next entries he ih => ?_) hbound h
  · rw [hrest]
    exact ⟨fun e he => (nomatch he), .refl _ _⟩
  · obtain ⟨hform, b, hb, hspelled⟩ := Entry.spelled_of_read? he
    have hwidth : e.width = b.length := by
      rw [e.width_eq]
      exact hspelled.length_eq
    rw [(Entry.advances_read? he).2.offset_eq, hwidth] at ih
    refine ⟨fun e' he' => ?_, ?_⟩
    · rcases List.mem_cons.1 he' with rfl | he'
      · exact hform
      · exact ih.1 e' he'
    · rw [hb]
      exact hspelled.append ih.2

variable {program : Bytes} {entries : List Entry}

/-- The instructions of a listing are well formed, and encoding them gives the
    program back up to its slots. -/
theorem spelled_of_entries? (h : entries? program = .ok entries) :
    (∀ e ∈ entries, e.WellFormed) ∧
      Respells 0 (slots entries) program (entries.flatMap Entry.encode) :=
  spelled_of_entriesFrom? (p := ⟨0, program⟩) (Nat.le_refl _) h

/-- The listing of a program is that of its instructions encoded again. -/
theorem entries?_respelled (h : entries? program = .ok entries) :
    entries? (entries.flatMap Entry.encode) = .ok entries :=
  entries?_encode (tiles_entries? h) (spelled_of_entries? h).1

end Listing

/-- An assembled program has the slots that its listing is encoded to. -/
theorem Assembly.flatMap_encode_of_assemble {source : Text} {program : Bytes}
    {entries : List Entry} (h : assemble source = .ok program)
    (hentries : Listing.entries? program = .ok entries) :
    entries.flatMap Entry.encode = program := by
  obtain ⟨a, statements, entries', hassembled⟩ := assembled_of_assemble h
  cases hentries.symm.trans hassembled.entries?_eq
  exact hassembled.program_eq.symm

end StackMachine
