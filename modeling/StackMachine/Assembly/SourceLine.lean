-- SUMMARY: Source lines: comments, labels, mnemonic and operand text.
import StackMachine.Text.Basic

/-!
# Source lines

A source line holds any number of labels, each with a colon behind it, and then
an instruction or nothing. A semicolon begins a comment unless it stands in a
string literal. A literal ends at its own kind of quote, and only where nothing
but white space and a comment follows, so it may hold quotes of both kinds.
-/

namespace StackMachine

/-- A source line without its comment. -/
structure SourceLine where
  labels : List Text
  /-- The mnemonic and the text of the operands. -/
  instruction : Option (Text × Text)
  deriving DecidableEq, Repr

namespace SourceLine

/-! ## Comments -/

def isQuote (c : Char) : Bool :=
  c = '"' || c = '\''

/-- Does nothing but white space and a comment follow? -/
def endsLiteral (t : Text) : Bool :=
  match Text.trimLeft t with
  | [] => true
  | c :: _ => c = ';'

/-- The text before the comment, where `quote` has opened a literal. -/
def beforeComment : (quote : Option Char) → Text → Text
  | _, [] => []
  | none, c :: t =>
    if c = ';' then [] else c :: beforeComment (if isQuote c then some c else none) t
  | some q, c :: t =>
    c :: beforeComment (if c = q ∧ endsLiteral t then none else some q) t

/-- The text of a line before its comment. -/
def stripComment (t : Text) : Text :=
  beforeComment none t

/-! ## Labels -/

/-- Cut the labels off a text. A label is what stands before a colon without
    white space in between; `name` is what has been read of it, last character
    first. White space after a label's colon is skipped. -/
def splitLabels : (name : Text) → Text → List Text × Text
  | name, [] => ([], name.reverse)
  | name, c :: t =>
    if c = ':' then
      let (labels, rest) := splitLabels [] t
      (name.reverse :: labels, rest)
    else if Text.isBlank c then
      if name = [] then splitLabels [] t else ([], name.reverse ++ c :: t)
    else splitLabels (c :: name) t

/-! ## Lines -/

/-- The mnemonic is the first word, the operands are what follows it. -/
def splitInstruction (t : Text) : Option (Text × Text) :=
  match t.takeWhile fun c => !Text.isBlank c with
  | [] => none
  | mnemonic => some (mnemonic, Text.trim (t.drop mnemonic.length))

/-- Read a line. -/
def parse (line : Text) : SourceLine :=
  let text := Text.trim (stripComment (Text.trim line))
  let (labels, rest) := splitLabels [] text
  ⟨labels, splitInstruction rest⟩

end SourceLine

end StackMachine
