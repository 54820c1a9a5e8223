-- SUMMARY: The arguments of a command line: flags, options with a value, and the file.
import StackMachine.Reply

/-!
# The command line

A reader of arguments for the program to be run with: `-d` and `-c` are flags,
`-o` has a value, and there is one file. Flags of one letter may stand together,
and a value in the option's own argument. It stands in for a library, whose
requests for help and for the version it does not know: it takes them, like
whatever else it does not know, for misuse. What is said about replies to
command lines holds for every reader with `ArgumentReader.Laws`.
-/

namespace StackMachine

namespace Options

/-- What one argument sets. -/
inductive Setting where
  | debug
  | compile
  | output (path : Text)
  | file (path : Text)
  deriving DecidableEq, Repr

def Setting.outputPath? : Setting → Option Text
  | output path => some path
  | _ => none

def Setting.filePath? : Setting → Option Text
  | file path => some path
  | _ => none

/-- Settings, and whether the next argument is the value of the last option. -/
abbrev Reading := List Setting × Bool

/-- The value that stands in an option's own argument. -/
def attached (value : Text) : Text :=
  value.dropWhile (· = '=')

/-- Options of one letter each; a value follows `o` at once or is the next
    argument. -/
def readLetters : Text → Option Reading
  | [] => some ([], false)
  | 'd' :: t => (readLetters t).map fun (settings, awaits) => (.debug :: settings, awaits)
  | 'c' :: t => (readLetters t).map fun (settings, awaits) => (.compile :: settings, awaits)
  | ['o'] => some ([], true)
  | 'o' :: value => some ([.output (attached value)], false)
  | _ => none

/-- An option by its name, perhaps with an equals sign and a value. -/
def readName (t : Text) : Option Reading :=
  let name := t.takeWhile (· ≠ '=')
  if name = "debug".toList then some ([.debug], false)
  else if name = "compile".toList then some ([.compile], false)
  else if name = "output".toList then
    match t.drop name.length with
    | [] => some ([], true)
    | value => some ([.output (attached value)], false)
  else none

/-- One argument that is not the value of an option. -/
def readArgument : Text → Option Reading
  | '-' :: '-' :: t => readName (t.dropWhile (· = '-'))
  | '-' :: c :: t => readLetters (c :: t)
  | t => some ([.file t], false)

/-- The settings of the arguments. Behind two dashes all arguments are files. -/
def readAll : (awaitsValue : Bool) → List Text → Option (List Setting)
  | false, [] => some []
  | true, [] => none
  | true, value :: rest =>
    if ArgumentReader.isValue value then (readAll false rest).map (.output value :: ·) else none
  | false, argument :: rest =>
    if argument = ['-', '-'] then some (rest.map .file)
    else do
      let (settings, awaitsValue) ← readArgument argument
      return settings ++ (← readAll awaitsValue rest)

/-- Options from settings. There is one file and no setting occurs twice;
    compiling needs an output. -/
def ofSettings? (settings : List Setting) : Option Options :=
  let outputs := settings.filterMap Setting.outputPath?
  let compile := settings.contains .compile
  match settings.filterMap Setting.filePath? with
  | [file] =>
    if settings.count .debug ≤ 1 ∧ settings.count .compile ≤ 1 ∧ outputs.length ≤ 1
        ∧ (compile → outputs ≠ []) then
      some ⟨settings.contains .debug, compile, outputs.head?, file⟩
    else none
  | _ => none

/-- The options that the arguments give, unless they are misused. -/
def ofArguments? (arguments : List Text) : Option Options := do
  ofSettings? (← readAll false arguments)

end Options

/-! ## Reading -/

/-- The reader that the program is run with. Misuse ends it with the exit code of
    failure. -/
def ArgumentReader.plain : ArgumentReader := fun arguments =>
  match Options.ofArguments? arguments with
  | none => .error ⟨[], .exit failureCode⟩
  | some o => .ok o

/-- The reply of the program as it is run. -/
def Folder.reply? (folder : Folder) (arguments : List Text) (bound : Nat) :
    Option (Reply × Folder) :=
  folder.respond? .plain arguments bound

end StackMachine
