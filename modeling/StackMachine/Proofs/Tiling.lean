-- SUMMARY: The instructions of a listing lie end to end, from the first byte of the program to the last.
import Mathlib
import StackMachine.Listing

/-!
# Tilings

Reading an operand takes as many bytes as its encoding has, so an instruction
ends where its width says. A listing reads each instruction where the one before
it ended, and it stops only at the end of the program: its instructions tile the
program.
-/

namespace StackMachine

/-- The number of bytes of an operand in a program. -/
def Operand.width (o : Operand) : Nat :=
  o.encode.length

/-- The number of bytes of an instruction in a program. -/
def Entry.width (e : Entry) : Nat :=
  1 + (e.operands.map Operand.width).sum

/-- The instructions lie end to end from the offset `start` to the offset `stop`. -/
def Listing.Tiles (start : Nat) : List Entry → (stop : Nat) → Prop
  | [], stop => start = stop
  | e :: entries, stop => e.offset = start ∧ Tiles (start + e.width) entries stop

namespace Place

/-- The place `next` lies `n` bytes further on in the same program. -/
def Advances (p : Place) (n : Nat) (next : Place) : Prop :=
  n ≤ p.rest.length ∧ next = p.skip n

theorem Advances.trans {p next last : Place} {n k : Nat} (h : p.Advances n next)
    (h' : next.Advances k last) : p.Advances (n + k) last := by
  obtain ⟨hn, rfl⟩ := h
  obtain ⟨hk, rfl⟩ := h'
  simp only [skip, List.length_drop] at hk
  refine ⟨by omega, ?_⟩
  simp only [skip, List.drop_drop, Nat.add_assoc]

theorem Advances.finish_eq {p next : Place} {n : Nat} (h : p.Advances n next) :
    next.finish = p.finish := by
  obtain ⟨hn, rfl⟩ := h
  simp only [finish, skip, List.length_drop]
  omega

theorem Advances.offset_eq {p next : Place} {n : Nat} (h : p.Advances n next) :
    next.offset = p.offset + n := by
  rw [h.2]
  rfl

/-- A reading that is followed by another one. -/
theorem bind_eq_ok {x : Except Malformation (α × Place)}
    {f : α × Place → Except Malformation β} {b : β} (h : x >>= f = .ok b) :
    ∃ a next, x = .ok (a, next) ∧ f (a, next) = .ok b := by
  cases x with
  | error e => cases h
  | ok r => exact ⟨r.1, r.2, rfl, h⟩

variable {p next : Place}

theorem byte?_eq_ok {b : UInt8} (h : p.byte? = .ok (b, next)) :
    p.rest = b :: next.rest ∧ next = p.skip 1 := by
  unfold byte? at h
  cases hrest : p.rest with
  | nil =>
    rw [hrest] at h
    cases h
  | cons c rest =>
    rw [hrest] at h
    cases h
    rw [skip, hrest]
    exact ⟨rfl, rfl⟩

theorem bytes?_eq_ok {n : Nat} {bytes : Bytes} (h : p.bytes? n = .ok (bytes, next)) :
    n ≤ p.rest.length ∧ bytes = p.rest.take n ∧ next = p.skip n := by
  by_cases hn : n ≤ p.rest.length
  · rw [bytes?_of_le hn] at h
    cases h
    exact ⟨hn, rfl, rfl⟩
  · rw [bytes?_of_lt (Nat.lt_of_not_le hn)] at h
    cases h

theorem advances_byte? {b : UInt8} (h : p.byte? = .ok (b, next)) : p.Advances 1 next := by
  obtain ⟨hrest, hnext⟩ := byte?_eq_ok h
  exact ⟨by simp [hrest], hnext⟩

theorem advances_bytes? {n : Nat} {bytes : Bytes} (h : p.bytes? n = .ok (bytes, next)) :
    bytes.length = n ∧ p.Advances n next := by
  obtain ⟨hn, rfl, hnext⟩ := bytes?_eq_ok h
  exact ⟨List.length_take_of_le hn, hn, hnext⟩

theorem advances_opcode? {op : Opcode} (h : p.opcode? = .ok (op, next)) : p.Advances 1 next := by
  obtain ⟨b, after, hb, h⟩ := bind_eq_ok h
  dsimp only at h
  split at h
  · cases h
    exact advances_byte? hb
  · cases h

/-- What an operand of the kind is read from. -/
inductive Reads (p next : Place) : OperandKind → Operand → Prop
  | exitCode {b : UInt8} (byte : p.byte? = .ok (b, next)) : Reads p next .exitCode (.exitCode b)
  | register {r : Register} (byte : p.byte? = .ok (r.byte, next)) :
      Reads p next .register (.register r)
  | integer {slot : Bytes} {v : Int} (bytes : p.bytes? Slot.width = .ok (slot, next))
      (value : Slot.decode? slot = some v) : Reads p next .integer (.integer v)
  | address {slot : Bytes} {v : Int} (bytes : p.bytes? Slot.width = .ok (slot, next))
      (value : Slot.decode? slot = some v) : Reads p next .address (.integer v)
  | string {high low : UInt8} {mid last : Place} {b : Bytes} (first : p.byte? = .ok (high, mid))
      (second : mid.byte? = .ok (low, last))
      (bytes : last.bytes? (Bytes.toLength high low) = .ok (b, next))
      (short : Bytes.toLength high low ≤ maxStringLength) : Reads p next .string (.string b)

theorem reads_of_operand? {kind : OperandKind} {o : Operand}
    (h : p.operand? kind = .ok (o, next)) : p.Reads next kind o := by
  cases kind with
  | exitCode =>
    obtain ⟨b, after, hb, h⟩ := bind_eq_ok h
    cases h
    exact .exitCode hb
  | register =>
    obtain ⟨b, after, hb, h⟩ := bind_eq_ok h
    dsimp only at h
    split at h
    · rename_i r hr
      cases h
      obtain rfl := Register.byte_of_ofByte? hr
      exact .register hb
    · cases h
  | integer | address =>
    obtain ⟨slot, after, hslot, h⟩ := bind_eq_ok h
    dsimp only at h
    split at h
    · rename_i v hv
      cases h
      constructor
      · exact hslot
      · exact hv
    · cases h
  | string =>
    obtain ⟨length, after, hlength, h⟩ := bind_eq_ok h
    rw [length?_eq] at hlength
    obtain ⟨high, mid, hhigh, hlength⟩ := bind_eq_ok hlength
    obtain ⟨low, last, hlow, hlength⟩ := bind_eq_ok hlength
    cases hlength
    dsimp only at h
    split at h
    · cases h
    · rename_i hshort
      obtain ⟨b, stop, hb, h⟩ := bind_eq_ok h
      cases h
      exact .string hhigh hlow hb (Nat.le_of_not_lt hshort)

/-- Reading an operand takes as many bytes as it has. -/
theorem advances_operand? {kind : OperandKind} {o : Operand}
    (h : p.operand? kind = .ok (o, next)) : p.Advances o.width next := by
  cases reads_of_operand? h with
  | exitCode byte | register byte => exact advances_byte? byte
  | @integer _ v bytes _ | @address _ v bytes _ =>
    have hwidth : (Operand.integer v).width = Slot.width := Slot.length_encode v
    rw [hwidth]
    exact (advances_bytes? bytes).2
  | @string _ _ _ _ b first second bytes _ =>
    obtain ⟨hlen, hadvances⟩ := advances_bytes? bytes
    have hwidth : (Operand.string b).width = 1 + 1 + b.length := by
      simp only [Operand.width, Operand.encode, Bytes.ofLength, List.length_append,
        List.length_cons, List.length_nil]
    rw [hwidth, hlen]
    exact ((advances_byte? first).trans (advances_byte? second)).trans hadvances

theorem advances_operands? {kinds : List OperandKind} {operands : List Operand}
    (h : p.operands? kinds = .ok (operands, next)) :
    p.Advances (operands.map Operand.width).sum next := by
  induction kinds generalizing p operands with
  | nil =>
    cases h
    exact ⟨Nat.zero_le _, rfl⟩
  | cons kind kinds ih =>
    obtain ⟨o, mid, ho, h⟩ := bind_eq_ok h
    obtain ⟨rest, stop, hrest, h⟩ := bind_eq_ok h
    cases h
    rw [List.map_cons, List.sum_cons]
    exact (advances_operand? ho).trans (ih hrest)

end Place

theorem Entry.advances_read? {p next : Place} {e : Entry} (h : Entry.read? p = .ok (e, next)) :
    e.offset = p.offset ∧ p.Advances e.width next := by
  obtain ⟨op, mid, hop, h⟩ := Place.bind_eq_ok h
  obtain ⟨operands, stop, hoperands, h⟩ := Place.bind_eq_ok h
  cases h
  exact ⟨rfl, (Place.advances_opcode? hop).trans (Place.advances_operands? hoperands)⟩

namespace Listing

/-- A listing from a place on is read instruction by instruction up to the end of
    the program. Each takes a byte or more, so the bound never cuts it off. -/
theorem induction_entriesFrom? {P : Place → List Entry → Prop}
    (nil : ∀ p : Place, p.rest = [] → P p [])
    (cons : ∀ p e next entries, Entry.read? p = .ok (e, next) → P next entries →
      P p (e :: entries))
    {bound : Nat} {p : Place} {entries : List Entry} (hbound : p.rest.length ≤ bound)
    (h : entriesFrom? bound p = .ok entries) : P p entries := by
  induction bound generalizing p entries with
  | zero =>
    cases h
    exact nil p (List.length_eq_zero_iff.1 (Nat.le_zero.1 hbound))
  | succ bound ih =>
    unfold entriesFrom? at h
    split at h
    · rename_i hrest
      cases h
      exact nil p hrest
    · obtain ⟨e, next, he, h⟩ := Place.bind_eq_ok h
      obtain ⟨rest, hrest⟩ : ∃ rest, entriesFrom? bound next = .ok rest := by
        cases hnext : entriesFrom? bound next with
        | ok rest => exact ⟨rest, rfl⟩
        | error f =>
          simp only [hnext] at h
          cases h
      simp only [hrest] at h
      cases h
      refine cons p e next rest he (ih ?_ hrest)
      -- The opcode alone is a byte, so what is left fits the smaller bound.
      obtain ⟨-, hle, rfl⟩ := Entry.advances_read? he
      simp only [Place.skip, List.length_drop, Entry.width] at hle ⊢
      omega

theorem tiles_entriesFrom? {bound : Nat} {p : Place} {entries : List Entry}
    (hbound : p.rest.length ≤ bound) (h : entriesFrom? bound p = .ok entries) :
    Tiles p.offset entries p.finish := by
  refine induction_entriesFrom? (P := fun p entries => Tiles p.offset entries p.finish)
    (fun p hrest => ?_) (fun p e next entries he ih => ?_) hbound h
  · exact (Nat.add_zero p.offset).symm.trans
      (congrArg (p.offset + ·) (List.length_eq_zero_iff.2 hrest).symm)
  · obtain ⟨hoffset, hadvances⟩ := Entry.advances_read? he
    rw [hadvances.finish_eq, hadvances.2] at ih
    exact ⟨hoffset, ih⟩

/-- The instructions of a listing lie end to end in the program. -/
theorem tiles_entries? {program : Bytes} {entries : List Entry}
    (h : entries? program = .ok entries) : Tiles 0 entries program.length := by
  have htiles := tiles_entriesFrom? (p := ⟨0, program⟩) (Nat.le_refl _) h
  rwa [Place.finish, Nat.zero_add] at htiles

end Listing

end StackMachine
