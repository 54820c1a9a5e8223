-- SUMMARY: Operands in source text: numbers, registers, string literals and label references.
import StackMachine.Assembly.SourceLine
import StackMachine.Assembly.SyntaxError
import StackMachine.Operand

/-!
# Arguments

An argument is an operand as source text gives it: the operand itself, or a
reference to a label whose address is the operand. A register is written `$A`,
a reference `%name`, a string literal between two quotes of one kind.
-/

namespace StackMachine

inductive Argument where
  | operand (o : Operand)
  | reference (label : Text)
  deriving DecidableEq, Repr

namespace Argument

/-- The bytes of an argument before labels are resolved. -/
def bytes : Argument → Bytes
  | operand o => o.encode
  | reference _ => Slot.blank

/-! ## Reading one argument -/

def readNumber (t : Text) : Except Mistake Int :=
  match Decimal.parse? t with
  | some v => .ok v
  | none => .error (.invalidInteger t)

def readExitCode (t : Text) : Except Mistake Argument := do
  let v ← readNumber t
  if 0 ≤ v ∧ v ≤ 255 then return .operand (.exitCode v.toNat.toUInt8)
  else throw .exitCodeOutOfRange

def readInteger (t : Text) : Except Mistake Argument := do
  let v ← readNumber t
  if Slot.Fits v then return .operand (.integer v) else throw (.integerOutOfRange v)

def readAddress : Text → Except Mistake Argument
  | ['%'] => throw .emptyLabel
  | '%' :: label => return .reference label
  | t => readInteger t

def readRegister : Text → Except Mistake Argument
  | '$' :: name =>
    match Register.ofName? name with
    | some r => return .operand (.register r)
    | none => throw (.unknownRegister ('$' :: name))
  | _ => throw .expectedRegister

/-- The text between the quotes of a literal. -/
def literal? : Text → Option Text
  | q :: t => if SourceLine.isQuote q ∧ t.getLast? = some q then some t.dropLast else none
  | [] => none

def readString (t : Text) : Except Mistake Argument :=
  match literal? t with
  | none => throw .malformedString
  | some contents =>
    let b := Utf8.encode contents
    if b.length ≤ maxStringLength then return .operand (.string b) else throw .stringTooLong

def read (kind : OperandKind) (t : Text) : Except Mistake Argument :=
  match kind with
  | .exitCode => readExitCode t
  | .register => readRegister t
  | .integer => readInteger t
  | .address => readAddress t
  | .string => readString t

/-! ## Reading the arguments of an instruction -/

/-- The text of each operand. A string takes all the text that is left, any
    other operand is a word. -/
def split (layout : Layout) (t : Text) : Except Mistake (List (OperandKind × Text)) :=
  match layout, Text.words t with
  | .string, _ => return [(.string, t)]
  | .registerString, r :: _ :: _ => return [(.register, r), (.string, Text.trim (t.drop r.length))]
  | .registerString, _ => throw (.arity layout)
  | layout, words =>
    if words.length = layout.kinds.length then return layout.kinds.zip words
    else throw (.arity layout)

/-- Only the number of operands can be wrong here, and where all of the text is one
    string not even that. -/
theorem split_eq_error {layout : Layout} {t : Text} {mistake : Mistake}
    (h : split layout t = .error mistake) : mistake = .arity layout ∧ layout ≠ .string := by
  unfold split at h
  split at h
  · cases h
  · cases h
  · cases h
    exact ⟨rfl, nofun⟩
  · rename_i hstring _ _
    split at h
    · cases h
    · cases h
      exact ⟨rfl, hstring⟩

/-- The arguments before the first mistake, and that mistake. -/
def untilMistake : List (Except Mistake Argument) → List Argument × Option Mistake
  | [] => ([], none)
  | .error mistake :: _ => ([], some mistake)
  | .ok argument :: rest =>
    let (arguments, mistake) := untilMistake rest
    (argument :: arguments, mistake)

/-- Read the arguments of an instruction from left to right. -/
def readAll (layout : Layout) (t : Text) : List Argument × Option Mistake :=
  match split layout t with
  | .error mistake => ([], some mistake)
  | .ok parts => untilMistake (parts.map fun (kind, t) => read kind t)

end Argument

end StackMachine
