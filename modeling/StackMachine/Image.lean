-- SUMMARY: Program files: precompiled images and source text.
import StackMachine.Assembly.Basic
import StackMachine.Sink

/-!
# Program files

A file is an image if it begins with four magic bytes; the program follows
them. Any other file is source text in UTF-8.
-/

namespace StackMachine.Image

/-- The bytes at the beginning of an image. -/
def magic : Bytes :=
  [0x1F, 0x45, 0x42, 0x43]

/-! ## Writing -/

/-- The image of a program. -/
def ofProgram (program : Bytes) : Bytes :=
  magic ++ program

/-- Write the image of a program; the result says whether the sink took all. -/
def write (program : Bytes) (sink : Sink) : Bool × Sink :=
  (sink.fits (ofProgram program).length, sink.write (ofProgram program))

/-! ## Reading -/

def isImage (file : Bytes) : Bool :=
  magic.isPrefixOf file

/-- What a file holds. -/
inductive Content where
  | image (program : Bytes)
  | source (text : Text)
  deriving DecidableEq, Repr

/-- Why a file gives no program. -/
inductive LoadError where
  | encoding (e : Utf8.Error)
  | source (e : SyntaxError)
  deriving DecidableEq, Repr

def LoadError.message : LoadError → Text
  | encoding e => "source is not valid UTF-8: ".toList ++ e.message
  | source e => e.message

def detect (file : Bytes) : Except LoadError Content :=
  if isImage file then .ok (.image (file.drop magic.length))
  else
    match Utf8.decode? file with
    | .ok text => .ok (.source text)
    | .error e => .error (.encoding e)

/-- The program of a file. -/
def load (file : Bytes) : Except LoadError Bytes := do
  match ← detect file with
  | .image program => return program
  | .source text => (assemble text).mapError .source

/-! ## Events -/

/-- The events of `detect`. -/
def detectEvents (file : Bytes) : List Event :=
  if isImage file then [.imageFound (file.length - magic.length)] else []

/-- The events of `load`. -/
def loadEvents (file : Bytes) : List Event :=
  let assembled := match detect file with
    | .ok (.source text) => Assembly.eventsOfSource text
    | _ => []
  let loaded := match load file with
    | .ok program => [.programLoaded program]
    | .error _ => []
  detectEvents file ++ assembled ++ loaded

end StackMachine.Image
