-- SUMMARY: What the program does with its options: plans, and replies in a folder.
import StackMachine.Folder
import StackMachine.Image
import StackMachine.Listing
import StackMachine.Machine.Run

/-!
# Replies

The options name a program file to run. With `debug` the program and its listing
are printed first and execution is traced; with `compile` an image is written
instead of running. `Options.prepare` decides all this from the contents of the
file, and `Folder.carryOut?` does what is left to do in a folder of files. The
options themselves come from a library that reads the command line:
`ArgumentReader.Laws` says what of it is relied on.
-/

namespace StackMachine

/-! ## Options -/

structure Options where
  debug : Bool
  compile : Bool
  output : Option Text
  file : Text
  deriving DecidableEq, Repr

/-! ## Plans -/

/-- What is left to do once a program file has been read. -/
inductive Plan where
  | fail (message : Text)
  | save (path : Text) (image : Bytes)
  | execute (m : Machine)

/-- A plan, and the text to print before. -/
structure Preparation where
  heading : Text
  plan : Plan

def errorLine (message : Text) : Text :=
  "Error: ".toList ++ message ++ ['\n']

/-- A program as hexadecimal digits and its length, a line each. -/
def programLines (program : Bytes) : Text :=
  Bytes.hex program ++ '\n' :: Decimal.ofNat program.length ++ ['\n']

namespace Options

/-- Save the image of a program or execute it. -/
def planFor (o : Options) (program : Bytes) : Plan :=
  match o.compile, o.output with
  | true, some path => .save path (Image.ofProgram program)
  | _, _ => .execute (.ofProgram program { tracing := o.debug })

/-- What the options ask for, given the contents of the file. -/
def prepare (o : Options) (file : Bytes) : Preparation :=
  match Image.load file with
  | .error e => ⟨[], .fail e.message⟩
  | .ok program =>
    if o.debug then
      match Listing.lines? program with
      | .error e => ⟨programLines program, .fail e.message⟩
      | .ok lines =>
        ⟨programLines program ++ lines.flatMap (· ++ ['\n']), o.planFor program⟩
    else ⟨[], o.planFor program⟩

end Options

/-! ## Replies -/

inductive Ending where
  | exit (code : UInt8)
  /-- The program was malformed where it was executed. -/
  | abort (why : Malformation)
  deriving DecidableEq, Repr

structure Reply where
  stdout : Bytes
  ending : Ending
  deriving DecidableEq, Repr

/-- The exit code of misuse and of failure. -/
def failureCode : UInt8 := 1

/-- The exit code of a machine that left its stack. -/
def crashCode : UInt8 := 101

namespace Reply

def failure (heading message : Text) : Reply :=
  ⟨Utf8.encode (heading ++ errorLine message), .exit failureCode⟩

/-- Execute a machine for at most so many steps and reply with its output. -/
def ofMachine? (heading : Text) (m : Machine) (bound : Nat) : Option Reply :=
  match m.run bound with
  | .ok none _ => none
  | .ok (some code) m => some ⟨Utf8.encode heading ++ m.output.bytes, .exit code⟩
  | .error (.malformed f) m => some ⟨Utf8.encode heading ++ m.output.bytes, .abort f⟩
  | .error .outOfBounds m => some ⟨Utf8.encode heading ++ m.output.bytes, .exit crashCode⟩

end Reply

/-! ## Replies in a folder -/

namespace Folder

/-- Do what is left to do in the folder. -/
def carryOut? (folder : Folder) (preparation : Preparation) (bound : Nat) :
    Option (Reply × Folder) :=
  match preparation.plan with
  | .fail message => some (.failure preparation.heading message, folder)
  | .save path image =>
    match folder.write? path image with
    | .error e => some (.failure preparation.heading e.message, folder)
    | .ok folder => some (⟨Utf8.encode preparation.heading, .exit 0⟩, folder)
  | .execute m => (Reply.ofMachine? preparation.heading m bound).map fun reply => (reply, folder)

/-- The reply to options, and the folder afterwards. There is none if the
    program does not end within the bound. -/
def perform? (folder : Folder) (o : Options) (bound : Nat) : Option (Reply × Folder) :=
  match folder.read? o.file with
  | .error e => some (.failure [] e.message, folder)
  | .ok file => folder.carryOut? (o.prepare file) bound

end Folder

/-! ## Command lines -/

/-- A reading of the arguments of a command line. It gives the options, or it
    ends the program by a reply of its own: about its usage, about its version
    or about misuse. -/
abbrev ArgumentReader := List Text → Except Reply Options

namespace ArgumentReader

/-- Can the argument be a file, or the value of the option before it? Options
    begin with a dash, which alone is none. -/
def isValue (t : Text) : Bool :=
  t = ['-'] || t.head? ≠ some '-'

/-- What an argument reader is relied on for: an argument that is no option is
    the file, the value of an output may follow it as the next argument, and
    the flag for debugging may stand in front of all others. -/
structure Laws (read : ArgumentReader) : Prop where
  file {path : Text} (h : isValue path = true) : read [path] = .ok ⟨false, false, none, path⟩
  compile {out path : Text} (hout : isValue out = true) (hpath : isValue path = true) :
    read ["-c".toList, "-o".toList, out, path] = .ok ⟨false, true, some out, path⟩
  debug {arguments : List Text} {o : Options} (h : read arguments = .ok o)
    (hdebug : o.debug = false) : read ("-d".toList :: arguments) = .ok { o with debug := true }

end ArgumentReader

/-- The reply to a command line, and the folder afterwards. A reader that ends
    the program does so before any file is looked at. -/
def Folder.respond? (folder : Folder) (read : ArgumentReader) (arguments : List Text)
    (bound : Nat) : Option (Reply × Folder) :=
  match read arguments with
  | .error reply => some (reply, folder)
  | .ok o => folder.perform? o bound

end StackMachine
