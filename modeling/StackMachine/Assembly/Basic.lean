-- SUMMARY: Assembling source text line by line, and resolving the labels at the end.
import StackMachine.Assembly.Argument
import StackMachine.Journal

/-!
# Assembling

An assembly takes source lines one by one. Each instruction becomes a
statement; a label stands for the offset at which the next statement begins.
Label references stay open until `Assembly.link` puts in the addresses, so a
label may be used before it is defined. A line with a mistake is refused, and
what stood before the mistake stays: labels, and the part of a statement.
-/

namespace StackMachine

/-! ## Statements -/

/-- A reference to a label: the line it is on and the offset of its slot. -/
structure Reference where
  label : Text
  line : Nat
  offset : Nat
  deriving DecidableEq, Repr

/-- An instruction of the source, where it is and where its code begins. -/
structure Statement where
  line : Nat
  offset : Nat
  opcode : Opcode
  arguments : List Argument
  deriving DecidableEq, Repr

/-- Labels with their addresses. -/
abbrev Labels := List (Text × Nat)

/-- The bytes of an argument once labels are resolved. -/
def Argument.resolve (labels : Labels) : Argument → Except Mistake Bytes
  | operand o => return o.encode
  | reference label =>
    match labels.lookup label with
    | none => throw (.undefinedLabel label)
    | some address =>
      match Slot.encode? address with
      | none => throw (.integerOutOfRange address)
      | some slot => return slot

namespace Statement

/-- The code of a statement before labels are resolved. -/
def bytes (s : Statement) : Bytes :=
  s.opcode.byte :: s.arguments.flatMap Argument.bytes

/-- The code of a statement once labels are resolved. -/
def resolve (labels : Labels) (s : Statement) : Except SyntaxError Bytes :=
  match s.arguments.mapM (Argument.resolve labels) with
  | .ok parts => .ok (s.opcode.byte :: parts.flatten)
  | .error mistake => .error ⟨s.line, mistake⟩

/-- The references among arguments that begin at an offset. -/
def referencesFrom (line : Nat) : (offset : Nat) → List Argument → List Reference
  | _, [] => []
  | offset, .operand o :: rest => referencesFrom line (offset + o.encode.length) rest
  | offset, .reference label :: rest =>
    ⟨label, line, offset⟩ :: referencesFrom line (offset + Slot.width) rest

def references (s : Statement) : List Reference :=
  referencesFrom s.line (s.offset + 1) s.arguments

end Statement

/-! ## Assemblies -/

structure Assembly where
  /-- The number of lines so far. -/
  line : Nat
  statements : Array Statement
  /-- The number of bytes of code so far, where the next statement begins. -/
  size : Nat
  /-- The labels so far, the last one first. -/
  labels : Labels
  deriving DecidableEq, Repr

/-- A step of an assembly. A refused step keeps what it had done. -/
abbrev Assembling := EStateM SyntaxError Assembly

namespace Assembly

def empty : Assembly :=
  ⟨0, #[], 0, []⟩

/-- The code so far, before labels are resolved. -/
def bytes (a : Assembly) : Bytes :=
  a.statements.toList.flatMap Statement.bytes

def references (a : Assembly) : List Reference :=
  a.statements.toList.flatMap Statement.references

/-- Refuse the present line. -/
def refuse (mistake : Mistake) : Assembling Unit := fun a =>
  .error ⟨a.line, mistake⟩ a

/-- Define a label at the present offset. -/
def define (label : Text) : Assembling Unit := fun a =>
  if label = [] then refuse .emptyLabel a
  else if (a.labels.lookup label).isSome then refuse (.duplicateLabel label) a
  else .ok () { a with labels := (label, a.size) :: a.labels }

/-- Add a statement on the present line at the present offset. -/
def emit (opcode : Opcode) (arguments : List Argument) : Assembling Unit := fun a =>
  let statement : Statement := ⟨a.line, a.size, opcode, arguments⟩
  .ok () { a with
    statements := a.statements.push statement
    size := a.size + statement.bytes.length }

/-- Take the instruction of a line. -/
def feedInstruction (mnemonic operands : Text) : Assembling Unit :=
  match Opcode.ofMnemonic? mnemonic with
  | none => refuse (.unknownInstruction mnemonic)
  | some op => do
    let (arguments, mistake) := Argument.readAll op.layout operands
    emit op arguments
    match mistake with
    | none => return
    | some mistake => refuse mistake

/-- Take the next source line. -/
def feed (line : Text) : Assembling Unit := do
  modify fun a => { a with line := a.line + 1 }
  let source := SourceLine.parse line
  source.labels.forM define
  match source.instruction with
  | none => return
  | some (mnemonic, operands) => feedInstruction mnemonic operands

/-- The assembly of a source text, up to the first refused line. -/
def ofSource (source : Text) : EStateM.Result SyntaxError Assembly Unit :=
  (Text.lines source).forM feed empty

/-- Resolve all label references. The result is the program. -/
def link (a : Assembly) : Except SyntaxError Bytes :=
  (a.statements.toList.mapM (Statement.resolve a.labels)).map List.flatten

end Assembly

/-- The program of a source text, or its first mistake. -/
def assemble (source : Text) : Except SyntaxError Bytes :=
  match Assembly.ofSource source with
  | .ok () a => a.link
  | .error e _ => .error e

/-! ## Events -/

namespace Assembly

/-- The events of taking the lines. -/
def events (a : Assembly) : List Event :=
  a.statements.toList.map fun s => .assembled s.line s.opcode s.offset

/-- The event of resolving a reference, if its label has an address that fits. -/
def resolution? (labels : Labels) (r : Reference) : Option Event := do
  let address ← labels.lookup r.label
  if Slot.Fits address then return .resolved r.label address r.offset else none

/-- The events of `link`, which stops at the first reference that fails. -/
def linkEvents (a : Assembly) : List Event :=
  ((a.references.map (resolution? a.labels)).takeWhile Option.isSome).filterMap id

/-- The events of `assemble`. -/
def eventsOfSource (source : Text) : List Event :=
  match ofSource source with
  | .ok () a => a.events ++ a.linkEvents
  | .error _ a => a.events

end Assembly

end StackMachine
