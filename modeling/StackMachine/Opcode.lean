-- SUMMARY: The 35 opcodes: their bytes, mnemonics and operand layouts.
import StackMachine.Bytes

/-!
# Opcodes

An instruction is an opcode byte and the operands that the opcode's layout
lists. The opcodes are numbered from zero in the order of `Opcode`.
-/

namespace StackMachine

/-! ## Operand layouts -/

/-- What one operand is. -/
inductive OperandKind where
  /-- One byte, the exit code of a program. -/
  | exitCode
  /-- One byte, the number of a register. -/
  | register
  /-- An integer slot. -/
  | integer
  /-- An integer slot, which source text may also fill with a label's address. -/
  | address
  /-- A sixteen-bit length and as many bytes. -/
  | string
  deriving DecidableEq, Repr

/-- The operand in words. -/
def OperandKind.name : OperandKind → Text
  | exitCode => "int".toList
  | register => "register".toList
  | integer => "int".toList
  | address => "int or label".toList
  | string => "string".toList

/-- What follows an opcode byte. -/
inductive Layout where
  | none
  | exitCode
  | register
  | integer
  | address
  | string
  | registerInteger
  | registerAddress
  | registerString
  | twoRegisters
  deriving DecidableEq, Repr

namespace Layout

/-- The operands in their order. -/
def kinds : Layout → List OperandKind
  | none => []
  | exitCode => [.exitCode]
  | register => [.register]
  | integer => [.integer]
  | address => [.address]
  | string => [.string]
  | registerInteger => [.register, .integer]
  | registerAddress => [.register, .address]
  | registerString => [.register, .string]
  | twoRegisters => [.register, .register]

/-- The layout in words, as a complaint about the number of operands names it. -/
def expectation (layout : Layout) : Text :=
  match layout with
  | none => "no operands".toList
  | twoRegisters => "two registers".toList
  | _ => " and ".toList.intercalate (layout.kinds.map OperandKind.name)

end Layout

/-! ## Opcodes -/

/-- The instructions without their operands. -/
inductive Opcode where
  | halt | pushInt | pushString | pushRegister | pop | popRegister | store | swap | dup
  | add | sub | mul | div
  | setInt | setString
  | jump | jumpPositive | jumpNegative | jumpZero | jumpNonzero | jumpRegister
  | print | printRegister | dump | dumpRegisters
  | ret | call | concat | param
  | compare | jumpGreater | jumpLess | jumpEqual | jumpUnequal
  | step
  deriving DecidableEq, Repr

namespace Opcode

/-- All opcodes in the order of their bytes. -/
def all : List Opcode :=
  [.halt, .pushInt, .pushString, .pushRegister, .pop, .popRegister, .store, .swap, .dup,
   .add, .sub, .mul, .div,
   .setInt, .setString,
   .jump, .jumpPositive, .jumpNegative, .jumpZero, .jumpNonzero, .jumpRegister,
   .print, .printRegister, .dump, .dumpRegisters,
   .ret, .call, .concat, .param,
   .compare, .jumpGreater, .jumpLess, .jumpEqual, .jumpUnequal,
   .step]

/-- The byte that begins the instruction. -/
def byte (op : Opcode) : UInt8 :=
  op.ctorIdx.toUInt8

/-- The opcode that a byte begins. -/
def ofByte? (b : UInt8) : Option Opcode :=
  all[b.toNat]?

@[simp] theorem ofByte?_byte (op : Opcode) : ofByte? op.byte = some op := by
  cases op <;> rfl

/-- The list of all opcodes has each at the place that its byte says. -/
theorem ctorIdx_getElem_all : ∀ i : Fin all.length, all[i].ctorIdx = i := by
  decide

theorem byte_of_ofByte? {b : UInt8} {op : Opcode} (h : ofByte? b = some op) : op.byte = b := by
  obtain ⟨hb, rfl⟩ := List.getElem?_eq_some_iff.1 h
  have hi : all[b.toNat].ctorIdx = b.toNat := ctorIdx_getElem_all ⟨b.toNat, hb⟩
  simp [byte, hi]

/-- The name of the opcode in source text and listings. -/
def mnemonic : Opcode → Text
  | .halt => "HALT".toList
  | .pushInt => "PUSHI".toList
  | .pushString => "PUSHSTR".toList
  | .pushRegister => "PUSHREG".toList
  | .pop => "POP".toList
  | .popRegister => "POPREG".toList
  | .store => "STORE".toList
  | .swap => "SWAP".toList
  | .dup => "DUP".toList
  | .add => "ADD".toList
  | .sub => "SUB".toList
  | .mul => "MUL".toList
  | .div => "DIV".toList
  | .setInt => "SETI".toList
  | .setString => "SETSTR".toList
  | .jump => "JMP".toList
  | .jumpPositive => "JMPGZ".toList
  | .jumpNegative => "JMPLZ".toList
  | .jumpZero => "JMPEQ".toList
  | .jumpNonzero => "JMPNEQ".toList
  | .jumpRegister => "JMPREG".toList
  | .print => "PRINT".toList
  | .printRegister => "PRINTR".toList
  | .dump => "DUMP".toList
  | .dumpRegisters => "DUMPR".toList
  | .ret => "RETURN".toList
  | .call => "CALL".toList
  | .concat => "CONCAT".toList
  | .param => "PARAM".toList
  | .compare => "CMP".toList
  | .jumpGreater => "JMPZGZ".toList
  | .jumpLess => "JMPZLZ".toList
  | .jumpEqual => "JMPZEQ".toList
  | .jumpUnequal => "JMPZNEQ".toList
  | .step => "STEP".toList

/-- The opcode of a mnemonic in letters of either case. `EXIT` is another name
    of `HALT`. -/
def ofMnemonic? (name : Text) : Option Opcode :=
  let name := name.map Char.toUpper
  if name = "EXIT".toList then some halt
  else all.find? fun op => op.mnemonic = name

@[simp] theorem ofMnemonic?_mnemonic (op : Opcode) : ofMnemonic? op.mnemonic = some op := by
  cases op <;> decide +kernel

/-- The operands that the opcode takes. -/
def layout : Opcode → Layout
  | .pop | .swap | .dup | .add | .sub | .mul | .div | .print | .dump | .dumpRegisters
  | .ret | .concat | .step => .none
  | .halt => .exitCode
  | .pushRegister | .popRegister | .store | .jumpRegister | .printRegister => .register
  | .pushInt => .integer
  | .jump | .jumpPositive | .jumpNegative | .jumpZero | .jumpNonzero | .call
  | .jumpGreater | .jumpLess | .jumpEqual | .jumpUnequal => .address
  | .pushString => .string
  | .param => .registerInteger
  | .setInt => .registerAddress
  | .setString => .registerString
  | .compare => .twoRegisters

end Opcode

end StackMachine
