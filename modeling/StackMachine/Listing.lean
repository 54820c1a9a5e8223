-- SUMMARY: Listings: the instructions of a program one after the other, with their offsets.
import StackMachine.Fault
import StackMachine.Operand

/-!
# Listings

A listing reads a program from its first byte to its last as one instruction
after the other. Each opcode's layout says what operands to read. The listing
exists only if every instruction is well formed and the last one ends where the
program does.
-/

namespace StackMachine

/-! ## Reading at a place -/

/-- A place in a program: its offset and the bytes from there on. -/
structure Place where
  offset : Nat
  rest : Bytes
  deriving DecidableEq, Repr

namespace Place

/-- The offset where the program ends. -/
def finish (p : Place) : Nat :=
  p.offset + p.rest.length

/-- The place `n` bytes further on. -/
def skip (p : Place) (n : Nat) : Place :=
  ⟨p.offset + n, p.rest.drop n⟩

/-- The next `n` bytes, or none of them if the program ends before. -/
def bytes? (p : Place) (n : Nat) : Except Malformation (Bytes × Place) :=
  let bytes := p.rest.take n
  if bytes.length = n then .ok (bytes, p.skip n) else .error (.unexpectedEnd p.finish)

theorem bytes?_of_le {p : Place} {n : Nat} (h : n ≤ p.rest.length) :
    p.bytes? n = .ok (p.rest.take n, p.skip n) :=
  if_pos (List.length_take_of_le h)

theorem bytes?_of_lt {p : Place} {n : Nat} (h : p.rest.length < n) :
    p.bytes? n = .error (.unexpectedEnd p.finish) := by
  have hne : (p.rest.take n).length ≠ n := by
    rw [List.length_take]
    omega
  exact if_neg hne

def byte? (p : Place) : Except Malformation (UInt8 × Place) :=
  match p.rest with
  | [] => .error (.unexpectedEnd p.offset)
  | b :: _ => .ok (b, p.skip 1)

/-- Bytes can be taken one after the other. -/
theorem bytes?_succ (p : Place) (n : Nat) :
    p.bytes? (n + 1) = (do
      let (b, next) ← p.byte?
      let (bytes, next) ← next.bytes? n
      return (b :: bytes, next)) := by
  obtain ⟨offset, rest⟩ := p
  cases rest with
  | nil => exact bytes?_of_lt (Nat.succ_pos n)
  | cons b rest =>
    change _ = (do
      let (bytes, next) ← bytes? ⟨offset + 1, rest⟩ n
      return (b :: bytes, next))
    by_cases hlen : n ≤ rest.length
    · rw [bytes?_of_le (Nat.succ_le_succ hlen), bytes?_of_le hlen]
      change _ = Except.ok (b :: rest.take n, Place.mk (offset + 1 + n) (rest.drop n))
      rw [Nat.add_assoc, Nat.add_comm 1 n]
      rfl
    · have hlt : rest.length < n := Nat.lt_of_not_le hlen
      rw [bytes?_of_lt (Nat.succ_lt_succ hlt), bytes?_of_lt hlt]
      change _ = Except.error (Malformation.unexpectedEnd ↑(offset + 1 + rest.length))
      rw [Nat.add_assoc, Nat.add_comm 1]
      rfl

def opcode? (p : Place) : Except Malformation (Opcode × Place) := do
  let (b, next) ← p.byte?
  match Opcode.ofByte? b with
  | some op => .ok (op, next)
  | none => .error (.unknownOpcode b p.offset)

def exitCode? (p : Place) : Except Malformation (Operand × Place) := do
  let (b, next) ← p.byte?
  return (.exitCode b, next)

def register? (p : Place) : Except Malformation (Operand × Place) := do
  let (b, next) ← p.byte?
  match Register.ofByte? b with
  | some r => .ok (.register r, next)
  | none => .error (.unknownRegister b p.offset)

def integer? (p : Place) : Except Malformation (Operand × Place) := do
  let (slot, next) ← p.bytes? Slot.width
  match Slot.decode? slot with
  | some v => .ok (.integer v, next)
  | none => .error (.malformedInteger p.offset)

def length? (p : Place) : Except Malformation (Nat × Place) :=
  match p.rest with
  | high :: low :: _ => .ok (Bytes.toLength high low, p.skip 2)
  | _ => .error (.unexpectedEnd p.finish)

/-- The two bytes of a length can be taken one after the other. -/
theorem length?_eq (p : Place) :
    p.length? = (do
      let (high, next) ← p.byte?
      let (low, next) ← next.byte?
      return (Bytes.toLength high low, next)) := by
  obtain ⟨offset, rest⟩ := p
  match rest with
  | [] => rfl
  | [_] => rfl
  | high :: low :: rest => rfl

def string? (p : Place) : Except Malformation (Operand × Place) := do
  let (length, next) ← p.length?
  if length > maxStringLength then .error (.malformedString length p.offset)
  else
    let (b, next) ← next.bytes? length
    return (.string b, next)

/-- The operand of a kind that begins at the place. -/
def operand? (p : Place) : OperandKind → Except Malformation (Operand × Place)
  | .exitCode => p.exitCode?
  | .register => p.register?
  | .integer | .address => p.integer?
  | .string => p.string?

/-- The operands of the kinds, one after the other. -/
def operands? (p : Place) : List OperandKind → Except Malformation (List Operand × Place)
  | [] => .ok ([], p)
  | kind :: kinds => do
    let (operand, next) ← p.operand? kind
    let (operands, next) ← next.operands? kinds
    return (operand :: operands, next)

end Place

/-! ## Listings -/

/-- An instruction of a listing. -/
structure Entry where
  offset : Nat
  opcode : Opcode
  operands : List Operand
  deriving DecidableEq, Repr

namespace Entry

/-- The line of an instruction: offset, colon, mnemonic and operands. -/
def render (e : Entry) : Text :=
  Decimal.padded e.offset ++ ": ".toList
    ++ [' '].intercalate (e.opcode.mnemonic :: e.operands.map Operand.render)

/-- The instruction at a place, and the place after it. -/
def read? (p : Place) : Except Malformation (Entry × Place) := do
  let (op, next) ← p.opcode?
  let (operands, next) ← next.operands? op.layout.kinds
  return (⟨p.offset, op, operands⟩, next)

end Entry

namespace Listing

/-- The instructions from a place on. The first number bounds their count. -/
def entriesFrom? : (bound : Nat) → Place → Except Malformation (List Entry)
  | 0, _ => .ok []
  | bound + 1, p =>
    if p.rest = [] then .ok []
    else do
      let (entry, next) ← Entry.read? p
      let entries ← entriesFrom? bound next
      return entry :: entries

/-- The instructions of a program. There are no more of them than bytes. -/
def entries? (program : Bytes) : Except Malformation (List Entry) :=
  entriesFrom? program.length ⟨0, program⟩

/-- The lines of a program's listing. -/
def lines? (program : Bytes) : Except Malformation (List Text) :=
  (entries? program).map fun entries => entries.map Entry.render

end Listing

end StackMachine
