-- SUMMARY: Compiling a program to an image and running that is the same as running the program.
import StackMachine.Proofs.Files
import StackMachine.Proofs.Replies
import StackMachine.Proofs.TextEncoding

/-!
# Compiling

An image holds the program it was made from, whatever the bytes of that program are.
Source text that does not look like an image is assembled. So a file and the image that
it is compiled to load alike, and command lines that differ in these only reply alike.
-/

namespace StackMachine

/-! ## Images -/

namespace Sink

theorem size_append (taken : Array UInt8) (a : Bytes) :
    (taken ++ a).size = taken.size + a.length := by
  rw [← Array.length_toList, Array.toList_appendList, List.length_append, Array.length_toList]

/-- Bytes may be written in two pieces. -/
theorem write_append (sink : Sink) (a b : Bytes) :
    sink.write (a ++ b) = (sink.write a).write b := by
  have hassoc (c d : Bytes) : sink.taken ++ (c ++ d) = sink.taken ++ c ++ d :=
    Array.toList_inj.1 (by simp)
  cases hlimit : sink.limit with
  | none => simp only [write, hlimit, hassoc]
  | some limit =>
    have hroom : limit - (sink.taken.size + min (limit - sink.taken.size) a.length) =
        limit - sink.taken.size - a.length := by omega
    simp only [write, hlimit, List.take_append, size_append, List.length_take, hroom, hassoc]

/-- Both pieces fit if the first one does, and the second one behind it. -/
theorem fits_append (sink : Sink) (a b : Bytes) :
    sink.fits (a ++ b).length = (sink.fits a.length && (sink.write a).fits b.length) := by
  cases hlimit : sink.limit with
  | none => simp only [fits, write, hlimit, Bool.and_self]
  | some limit =>
    rw [Bool.eq_iff_iff]
    simp only [fits, write, hlimit, size_append, List.length_append, List.length_take,
      Bool.and_eq_true, decide_eq_true_eq]
    omega

end Sink

namespace Image

/-- An image gives back the program that it was made of. -/
theorem load_ofProgram (program : Bytes) : load (ofProgram program) = .ok program := by
  have himage : isImage (ofProgram program) = true :=
    List.isPrefixOf_iff_prefix.2 (List.prefix_append magic program)
  rw [load, detect, if_pos himage]
  change Except.ok ((magic ++ program).drop magic.length) = _
  rw [List.drop_left]

/-- A text in UTF-8 is assembled, unless it begins like an image. -/
theorem load_encode {text : Text} (h : ¬magic <+: Utf8.encode text) :
    load (Utf8.encode text) = (assemble text).mapError .source := by
  have himage : ¬isImage (Utf8.encode text) = true :=
    fun himage => h (List.isPrefixOf_iff_prefix.1 himage)
  rw [load, detect, if_neg himage, Utf8.decode?_encode]
  rfl

/-- The bytes that mark an image and the program may be written one after the other. -/
theorem write_eq_pieces (program : Bytes) (sink : Sink) :
    write program sink =
      (sink.fits magic.length && (sink.write magic).fits program.length,
        (sink.write magic).write program) := by
  rw [write, ofProgram, Sink.fits_append, Sink.write_append]

/-- A limited sink takes as much of an image as fits, and the result says whether that
    is all of it. -/
theorem write_ofLimit (program : Bytes) (limit : Nat) :
    (write program (.ofLimit (some limit))).2.bytes =
      (ofProgram program).take (min limit (4 + program.length)) ∧
    ((write program (.ofLimit (some limit))).1 = false ↔ limit < 4 + program.length) := by
  have hlength : (ofProgram program).length = 4 + program.length := List.length_append
  constructor
  · rw [write, Sink.bytes_write_of_limit rfl, ← hlength, ← List.take_take, List.take_length]
    rfl
  · rw [write, hlength]
    simp [Sink.fits, Sink.ofLimit]

end Image

/-! ## Runs of images -/

namespace Folder

theorem carryOut?_save {folder : Folder} {path name : Text} (h : Path.Names path name)
    (heading : Text) (image : Bytes) (bound : Nat) :
    folder.carryOut? ⟨heading, .save path image⟩ bound =
      some (⟨Utf8.encode heading, .exit 0⟩, ⟨(name, image) :: folder.files⟩) := by
  simp only [carryOut?, write?_of_names h]

/-- Compiling and then running is running, for every reader of arguments with the laws.
    If a file holds a program, then compiling it prints nothing and writes the image of
    the program and no other file; whatever a program is, its image loads as the program;
    and running the image ends like running the file, within any bound, whether or not
    debugging is asked for. If loading the file fails, compiling and running report the
    same and write nothing. A text in UTF-8 that does not begin like an image loads as
    what it assembles to. A sink with a limit takes the bytes of an image up to the limit,
    and fails if there are more, in one piece or with the mark of an image and the program
    one after the other. -/
theorem run_compiled {read : ArgumentReader} (hlaws : read.Laws) {folder : Folder}
    {path out name : Text} {file : Bytes} (hpath : ArgumentReader.isValue path = true)
    (hout : ArgumentReader.isValue out = true) (hname : Path.Names out name)
    (hread : folder.read? path = .ok file) :
    let compiling := ["-c".toList, "-o".toList, out, path]
    let running (debug : Bool) (path : Text) := if debug then ["-d".toList, path] else [path]
    (∀ program, Image.load file = .ok program →
      let written : Folder := ⟨(name, Image.ofProgram program) :: folder.files⟩
      (∀ bound, folder.respond? read compiling bound = some (⟨[], .exit 0⟩, written)) ∧
      written.read? out = .ok (Image.ofProgram program) ∧
      ∀ debug bound, written.respond? read (running debug out) bound =
        (folder.respond? read (running debug path) bound).map fun (reply, _) => (reply, written)) ∧
    (∀ e, Image.load file = .error e → ∀ bound,
      let failed := some (⟨Utf8.encode (errorLine e.message), .exit 1⟩, folder)
      folder.respond? read compiling bound = failed ∧
      ∀ debug, folder.respond? read (running debug path) bound = failed) ∧
    (∀ program, Image.load (Image.ofProgram program) = .ok program) ∧
    (∀ text, ¬Image.magic <+: Utf8.encode text →
      Image.load (Utf8.encode text) = (assemble text).mapError .source) ∧
    (∀ program limit,
      let (complete, sink) := Image.write program (.ofLimit (some limit))
      sink.bytes = (Image.ofProgram program).take (min limit (4 + program.length)) ∧
      (complete = false ↔ limit < 4 + program.length)) ∧
    ∀ program (sink : Sink), Image.write program sink =
      (sink.fits Image.magic.length && (sink.write Image.magic).fits program.length,
        (sink.write Image.magic).write program) := by
  intro compiling running
  have hcompiling : read compiling = .ok ⟨false, true, some out, path⟩ :=
    hlaws.compile hout hpath
  have hrunning (debug : Bool) {path : Text} (h : ArgumentReader.isValue path = true) :
      read (running debug path) = .ok ⟨debug, false, none, path⟩ := by
    cases debug with
    | false => exact hlaws.file h
    | true => exact hlaws.debug (hlaws.file h) rfl
  refine ⟨fun program hload => ?_, fun e hload bound => ?_, Image.load_ofProgram,
    fun text => Image.load_encode, Image.write_ofLimit, Image.write_eq_pieces⟩
  · intro written
    have hwritten : written.read? out = .ok (Image.ofProgram program) :=
      read?_written hname _
    refine ⟨fun bound => ?_, hwritten, fun debug bound => ?_⟩
    · rw [respond?_eq_carryOut? hcompiling hread, Options.prepare_of_plain hload rfl]
      exact carryOut?_save hname [] _ bound
    · have hsame : Image.load (Image.ofProgram program) = Image.load file :=
        (Image.load_ofProgram program).trans hload.symm
      rw [respond?_eq_carryOut? (hrunning debug hout) hwritten,
        respond?_eq_carryOut? (hrunning debug hpath) hread, Options.prepare_congr hsame]
      exact carryOut?_of_not_saved written (Options.plan_ne_save rfl) bound
  · exact ⟨respond?_of_load_eq_error hcompiling hread hload bound,
      fun debug => respond?_of_load_eq_error (hrunning debug hpath) hread hload bound⟩

/-- A source that prints a number and halts is compiled to a file beside it. Its image
    prints and halts in the same way. -/
theorem run_compiled_of_print :
    let folder : Folder := ⟨[("in".toList, Utf8.encode "PUSHI 7\nPRINT\nHALT 3\n".toList)]⟩
    let compiling := ["-c".toList, "-o".toList, "out".toList, "in".toList]
    ∃ written : Folder,
      folder.respond? .plain compiling 0 = some (⟨[], .exit 0⟩, written) ∧
      written.read? "out".toList =
        .ok [0x1F, 0x45, 0x42, 0x43, 0x01, 0x0E, 0, 0, 0, 0, 0, 0, 0, 0x15, 0x00, 0x03] ∧
      written.respond? .plain ["out".toList] 3 = some (⟨[0x37, 0x0A], .exit 3⟩, written) := by
  intro folder compiling
  have hname : Path.Names "out".toList "out".toList :=
    Path.names_self (by decide) (by decide) (by decide) (by decide) (by decide +kernel)
  have hread : folder.read? "in".toList = .ok (Utf8.encode "PUSHI 7\nPRINT\nHALT 3\n".toList) := by
    decide +kernel
  have hload : Image.load (Utf8.encode "PUSHI 7\nPRINT\nHALT 3\n".toList) =
      .ok [0x01, 0x0E, 0, 0, 0, 0, 0, 0, 0, 0x15, 0x00, 0x03] := by
    decide +kernel
  have hrun : folder.respond? .plain ["in".toList] 3 = some (⟨[0x37, 0x0A], .exit 3⟩, folder) := by
    decide +kernel
  obtain ⟨hcompile, hwritten, hsame⟩ :=
    (run_compiled ArgumentReader.laws_plain (by decide) (by decide) hname hread).1 _ hload
  refine ⟨_, hcompile 0, hwritten, (hsame false 3).trans ?_⟩
  simp only [Bool.false_eq_true, if_false, hrun]
  rfl

end Folder

end StackMachine
