-- SUMMARY: What command lines ask for, and how the reply follows from the program that a file holds.
import StackMachine.CommandLine

/-!
# Replies

A command line gives options, if the reader of its arguments goes on, and these together
with the file make a plan. A file matters to a plan only through what loading it gives.
The laws of argument readers are satisfiable: the reader that the program is run with
has them.
-/

namespace StackMachine

/-! ## Command lines -/

namespace Options

variable {path out : Text} {arguments : List Text} {o : Options}

theorem readAll_cons {argument : Text} {settings : List Setting} {awaitsValue : Bool}
    (hne : argument ≠ ['-', '-']) (h : readArgument argument = some (settings, awaitsValue)) :
    readAll false (argument :: arguments) =
      (readAll awaitsValue arguments).map (settings ++ ·) := by
  rw [readAll, if_neg hne, h, Option.map_eq_bind]
  rfl

/-- What may be the value of an option is elsewhere the path of a file. -/
theorem readAll_of_isValue (h : ArgumentReader.isValue path = true) :
    readAll false (path :: arguments) = (readAll false arguments).map (.file path :: ·) := by
  have hne : path ≠ ['-', '-'] := by
    rintro rfl
    cases h
  have hread : readArgument path = some ([.file path], false) := by
    unfold readArgument
    split
    · simp [ArgumentReader.isValue] at h
    · simp [ArgumentReader.isValue] at h
    · rfl
  exact readAll_cons hne hread

/-- A file alone is run. -/
theorem ofArguments?_file (h : ArgumentReader.isValue path = true) :
    ofArguments? [path] = some ⟨false, false, none, path⟩ := by
  rw [ofArguments?, readAll_of_isValue h]
  rfl

theorem ofArguments?_compile (hout : ArgumentReader.isValue out = true)
    (hpath : ArgumentReader.isValue path = true) :
    ofArguments? ["-c".toList, "-o".toList, out, path] = some ⟨false, true, some out, path⟩ := by
  have hcompile : readArgument "-c".toList = some ([.compile], false) := by decide
  have houtput : readArgument "-o".toList = some ([], true) := by decide
  rw [ofArguments?, readAll_cons (by decide) hcompile, readAll_cons (by decide) houtput, readAll,
    if_pos hout, readAll_of_isValue hpath]
  rfl

theorem ofSettings?_debug {settings : List Setting} (h : ofSettings? settings = some o)
    (hdebug : o.debug = false) :
    ofSettings? (.debug :: settings) = some { o with debug := true } := by
  have hfiles : (Setting.debug :: settings).filterMap Setting.filePath? =
      settings.filterMap Setting.filePath? := rfl
  have houtputs : (Setting.debug :: settings).filterMap Setting.outputPath? =
      settings.filterMap Setting.outputPath? := rfl
  have hcompile : (Setting.debug :: settings).contains .compile = settings.contains .compile :=
    rfl
  have hcount : (Setting.debug :: settings).count .compile = settings.count .compile := rfl
  unfold ofSettings? at h ⊢
  rw [hfiles, houtputs, hcompile, hcount]
  dsimp only at h ⊢
  split at h
  · split at h
    · rename_i hproper
      cases h
      have hnone : settings.count .debug = 0 := List.count_eq_zero.2 (by simpa using hdebug)
      have hone : (Setting.debug :: settings).count .debug = 1 := by
        rw [List.count_cons_self, hnone]
      rw [if_pos ⟨Nat.le_of_eq hone, hproper.2⟩]
      rfl
    · cases h
  · cases h

/-- The debug option goes with anything that does not have it already. -/
theorem ofArguments?_debug (h : ofArguments? arguments = some o) (hdebug : o.debug = false) :
    ofArguments? ("-d".toList :: arguments) = some { o with debug := true } := by
  have hread : readArgument "-d".toList = some ([.debug], false) := by decide
  obtain ⟨settings, hsettings, ho⟩ := Option.bind_eq_some_iff.1 h
  rw [ofArguments?, readAll_cons (by decide) hread, hsettings]
  exact ofSettings?_debug ho hdebug

end Options

namespace ArgumentReader

theorem plain_eq_ok {arguments : List Text} {o : Options} :
    plain arguments = .ok o ↔ Options.ofArguments? arguments = some o := by
  unfold plain
  cases Options.ofArguments? arguments with
  | none => exact ⟨nofun, nofun⟩
  | some o' => rw [Except.ok.injEq, Option.some.injEq]

/-- The reader that the program is run with has the laws. -/
theorem laws_plain : Laws plain where
  file h := plain_eq_ok.2 (Options.ofArguments?_file h)
  compile hout hpath := plain_eq_ok.2 (Options.ofArguments?_compile hout hpath)
  debug h hdebug := plain_eq_ok.2 (Options.ofArguments?_debug (plain_eq_ok.1 h) hdebug)

end ArgumentReader

/-! ## Carrying out a plan -/

namespace Folder

variable {folder : Folder} {read : ArgumentReader} {arguments : List Text} {o : Options}
  {file : Bytes}

theorem respond?_eq_carryOut? (h : read arguments = .ok o)
    (hread : folder.read? o.file = .ok file) (bound : Nat) :
    folder.respond? read arguments bound = folder.carryOut? (o.prepare file) bound := by
  simp only [respond?, perform?, h, hread]

/-- If loading fails, that is what is reported, whatever else is asked for. -/
theorem respond?_of_load_eq_error (h : read arguments = .ok o)
    (hread : folder.read? o.file = .ok file) {e : Image.LoadError}
    (hload : Image.load file = .error e) (bound : Nat) :
    folder.respond? read arguments bound =
      some (⟨Utf8.encode (errorLine e.message), .exit 1⟩, folder) := by
  rw [respond?_eq_carryOut? h hread, Options.prepare, hload]
  rfl

/-- Unless an image is saved, the folder stays as it is and does not matter. -/
theorem carryOut?_of_not_saved (folder' : Folder) {preparation : Preparation}
    (h : ∀ path image, preparation.plan ≠ .save path image) (bound : Nat) :
    folder'.carryOut? preparation bound =
      (folder.carryOut? preparation bound).map fun (reply, _) => (reply, folder') := by
  unfold carryOut?
  cases hplan : preparation.plan with
  | fail message => rfl
  | save path image => exact absurd hplan (h path image)
  | execute m =>
    simp only [Option.map_map]
    rfl

end Folder

namespace Options

variable {o : Options} {file program : Bytes}

/-- A file matters only through what loading it gives. -/
theorem prepare_congr {file' : Bytes} (h : Image.load file' = Image.load file) :
    o.prepare file' = o.prepare file := by
  rw [prepare, prepare, h]

section Loaded

variable (hload : Image.load file = .ok program)
include hload

theorem prepare_of_plain (hdebug : o.debug = false) :
    o.prepare file = ⟨[], o.planFor program⟩ := by
  simp only [prepare, hload, hdebug, Bool.false_eq_true, if_false]

theorem prepare_of_listed (hdebug : o.debug = true) {lines : List Text}
    (hlines : Listing.lines? program = .ok lines) :
    o.prepare file =
      ⟨programLines program ++ lines.flatMap (· ++ ['\n']), o.planFor program⟩ := by
  simp only [prepare, hload, hdebug, if_true, hlines]

theorem prepare_of_unlisted (hdebug : o.debug = true) {e : Malformation}
    (hlines : Listing.lines? program = .error e) :
    o.prepare file = ⟨programLines program, .fail e.message⟩ := by
  simp only [prepare, hload, hdebug, if_true, hlines]

end Loaded

/-- An image is saved only where one is asked for. -/
theorem plan_ne_save (h : o.compile = false) (path : Text) (image : Bytes) :
    (o.prepare file).plan ≠ .save path image := by
  have hplan (program : Bytes) : o.planFor program ≠ .save path image := by
    rw [planFor, h]
    nofun
  unfold prepare
  split
  · nofun
  · split
    · split
      · nofun
      · exact hplan _
    · exact hplan _

end Options

end StackMachine
