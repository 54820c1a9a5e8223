-- SUMMARY: The program: command line, files, and output as it is produced.
import StackMachine.CommandLine

/-!
# The program

Reads the program file, does what `Options.prepare` plans and prints. A machine
runs in batches of steps; what a batch has printed goes out before the next.
The journal goes to the error output. A malformed program ends with the exit
code of an abort.
-/

namespace StackMachine.Main

/-- The exit code of a process that aborted. -/
def abortCode : UInt32 := 134

/-- The steps of one batch. -/
def batch : Nat := 100000

def putBytes (stream : IO.FS.Stream) (bytes : Bytes) : IO Unit := do
  stream.write ⟨bytes.toArray⟩
  stream.flush

def putText (stream : IO.FS.Stream) (t : Text) : IO Unit :=
  putBytes stream (Utf8.encode t)

def putEvents (events : List Event) : IO Unit := do
  let stderr ← IO.getStderr
  for e in events do
    putText stderr (e.level.name ++ ' ' :: e.message ++ ['\n'])

/-- Print what the machine has printed and recorded, and clear both. -/
def flush (m : Machine) : IO Machine := do
  putEvents m.journal.events
  putBytes (← IO.getStdout) m.output.bytes
  return { m with
    output := .ofLimit m.output.limit
    journal := .ofLimit m.journal.limit }

/-- Run a machine to its end. -/
partial def execute (m : Machine) : IO UInt32 := do
  match m.run batch with
  | .ok none m => execute (← flush m)
  | .ok (some code) m =>
    discard (flush m)
    return code.toUInt32
  | .error (.malformed f) m =>
    discard (flush m)
    putText (← IO.getStderr) ("fatal: ".toList ++ f.message ++ ['\n'])
    return abortCode
  | .error .outOfBounds m =>
    discard (flush m)
    return crashCode.toUInt32

/-- The number of an error, which comes with either sign. -/
def errorNumber (code : UInt32) : Nat :=
  (min code (0 - code)).toNat

/-- The error that a path gave rise to. -/
def pathError? : IO.Error → Option PathError
  | .noFileOrDirectory _ code _ => PathError.ofCode? (errorNumber code)
  | .inappropriateType _ code _ => PathError.ofCode? (errorNumber code)
  | .invalidArgument _ code _ => PathError.ofCode? (errorNumber code)
  | _ => none

/-- The text of an error of the file system. -/
def errorText (e : IO.Error) : Text :=
  match pathError? e with
  | some e => e.message
  | none => (toString e).toList

def fail (message : Text) : IO UInt32 := do
  putText (← IO.getStdout) (errorLine message)
  return failureCode.toUInt32

/-- Do what the options ask for. -/
def perform (o : Options) : IO UInt32 := do
  match ← (IO.FS.readBinFile (String.ofList o.file)).toBaseIO with
  | .error e => fail (errorText e)
  | .ok contents =>
    let file := contents.toList
    if o.debug then putEvents (Image.loadEvents file)
    let preparation := o.prepare file
    putText (← IO.getStdout) preparation.heading
    match preparation.plan with
    | .fail message => fail message
    | .save path image =>
      match ← (IO.FS.writeBinFile (String.ofList path) ⟨image.toArray⟩).toBaseIO with
      | .error e => fail (errorText e)
      | .ok () => return 0
    | .execute m =>
      let level := if o.debug then Level.debug else Level.error
      execute { m with journal := .ofLimit (some level) }

end StackMachine.Main

def main (arguments : List String) : IO UInt32 := do
  match StackMachine.Options.ofArguments? (arguments.map String.toList) with
  | some options => StackMachine.Main.perform options
  | none =>
    (← IO.getStderr).putStrLn "usage: [-d] [-c -o OUT] FILE"
    return StackMachine.failureCode.toUInt32
