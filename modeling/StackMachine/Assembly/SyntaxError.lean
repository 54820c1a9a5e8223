-- SUMMARY: What can be wrong with source text.
import StackMachine.Opcode
import StackMachine.Text.Decimal

/-!
# Syntax errors

A syntax error is a mistake on a line. Lines are counted from one. A label that
is never defined is a mistake on the line that refers to it.
-/

namespace StackMachine

inductive Mistake where
  | unknownInstruction (mnemonic : Text)
  /-- The operands are too few or too many for the layout. -/
  | arity (layout : Layout)
  | expectedRegister
  | unknownRegister (name : Text)
  | invalidInteger (token : Text)
  | integerOutOfRange (value : Int)
  | exitCodeOutOfRange
  | malformedString
  | stringTooLong
  | emptyLabel
  | duplicateLabel (label : Text)
  | undefinedLabel (label : Text)
  deriving DecidableEq, Repr

structure SyntaxError where
  line : Nat
  mistake : Mistake
  deriving DecidableEq, Repr

def SyntaxError.message (e : SyntaxError) : Text :=
  match e.mistake with
  | .unknownInstruction mnemonic => "Unknown instruction ".toList ++ mnemonic ++ onLine
  | .arity layout => "Expected ".toList ++ layout.expectation ++ onLine
  | .expectedRegister => "Expected register".toList ++ onLine
  | .unknownRegister name => name ++ " is not a register".toList ++ commaLine
  | .invalidInteger token => "Invalid integer ".toList ++ token ++ onLine
  | .integerOutOfRange value =>
    "Integer ".toList ++ Decimal.ofInt value ++ " out of operand range".toList ++ onLine
  | .exitCodeOutOfRange => "Exit code must be between 0-255".toList ++ commaLine
  | .malformedString => "Malformed string literal".toList ++ onLine
  | .stringTooLong => "String too long".toList ++ onLine
  | .emptyLabel => "Empty label name".toList ++ onLine
  | .duplicateLabel label => "Label ".toList ++ label ++ " redefined".toList ++ onLine
  | .undefinedLabel label =>
    "Label ".toList ++ label ++ " not defined, referenced".toList ++ onLine
where
  onLine : Text := " on line ".toList ++ Decimal.ofNat e.line
  commaLine : Text := ", line ".toList ++ Decimal.ofNat e.line

end StackMachine
