-- SUMMARY: Asking for debugging adds the program and its listing in front of the output, and nothing else.
import StackMachine.Proofs.Replies
import StackMachine.Proofs.RoundTrip
import StackMachine.Proofs.TextEncoding
import StackMachine.Proofs.Tracing

/-!
# Debugging

With debugging a program and its listing are printed first, and execution is traced.
Tracing does not reach the output, so the rest of the reply is what it is without
debugging. There is no listing if the bytes of an image are no instructions; then the
program is not executed and no image is written. What was assembled always has one.
-/

namespace StackMachine

/-! ## Programs without a listing -/

/-- What was assembled has a listing. -/
theorem Listing.exists_lines?_of_assemble {source : Text} {program : Bytes}
    (h : assemble source = .ok program) : ∃ lines, lines? program = .ok lines := by
  obtain ⟨a, statements, entries, hassembled⟩ := Assembly.assembled_of_assemble h
  exact ⟨entries.map Entry.render, by rw [lines?, hassembled.entries?_eq, Except.map]⟩

/-- What a file holds that is no image was assembled. -/
theorem Image.exists_assemble_of_load {file program : Bytes} (himage : isImage file = false)
    (h : load file = .ok program) : ∃ text, assemble text = .ok program := by
  rw [load, detect, if_neg (by simp [himage])] at h
  cases hdecoded : Utf8.decode? file with
  | error e =>
    rw [hdecoded] at h
    cases h
  | ok text =>
    rw [hdecoded] at h
    change (assemble text).mapError LoadError.source = _ at h
    cases hassembled : assemble text with
    | error e =>
      rw [hassembled] at h
      cases h
    | ok program' =>
      rw [hassembled] at h
      cases h
      exact ⟨text, hassembled⟩

/-! ## Replies with a heading -/

namespace Reply

/-- The reply with a text in front of the rest of the output. -/
def under (heading : Text) (reply : Reply) : Reply :=
  ⟨Utf8.encode heading ++ reply.stdout, reply.ending⟩

theorem failure_eq_under (heading message : Text) :
    failure heading message = (failure [] message).under heading := by
  rw [failure, Utf8.encode_append]
  rfl

/-- The reply of a machine is made of what its run returns and of its output then. -/
theorem ofMachine?_eq_under {m n : Machine} {bound : Nat}
    (hreturned : Machine.returned (n.run bound) = Machine.returned (m.run bound))
    (houtput : (Machine.leftBy (n.run bound)).output = (Machine.leftBy (m.run bound)).output)
    (heading : Text) :
    ofMachine? heading n bound = (ofMachine? [] m bound).map (under heading) := by
  unfold ofMachine?
  generalize m.run bound = r at hreturned houtput
  generalize n.run bound = r' at hreturned houtput
  cases r with
  | ok code m =>
    cases r' with
    | error a n => cases hreturned
    | ok code' n =>
      cases hreturned
      change n.output = m.output at houtput
      cases code with
      | none => rfl
      | some code => simp only [houtput]; rfl
  | error a m =>
    cases r' with
    | ok code n => cases hreturned
    | error a' n =>
      cases hreturned
      change n.output = m.output at houtput
      cases a with
      | malformed f => simp only [houtput]; rfl
      | outOfBounds => simp only [houtput]; rfl

/-- A fresh machine that traces replies as one that does not. -/
theorem ofMachine?_of_tracing {program : Bytes} (hsize : program.length < 2 ^ 63)
    (heading : Text) (bound : Nat) :
    ofMachine? heading (.ofProgram program { tracing := true }) bound =
      (ofMachine? [] (.ofProgram program {}) bound).map (under heading) := by
  have hm := (Machine.ready_ofProgram program {}).bounded
  have hrelates : Likeness.ofTracing.Relates (.ofProgram program {})
      (.ofProgram program { tracing := true }) := Machine.relates_ofTracing _ _
  obtain ⟨hreturned, hlast⟩ := Machine.run_ofTracing hsize (by decide) hm hrelates bound
  exact ofMachine?_eq_under hreturned hlast.output.symm heading

end Reply

/-! ## Debugging -/

namespace Folder

variable {folder : Folder} {o : Options} {program : Bytes}

/-- The program and its length are a line each. -/
theorem programLines_append (program : Bytes) (lines : List Text) :
    programLines program ++ lines.flatMap (· ++ ['\n']) =
      (Bytes.hex program :: Decimal.ofNat program.length :: lines).flatMap (· ++ ['\n']) := by
  simp [programLines]

/-- Carrying out what the options ask for, with debugging and without. -/
theorem carryOut?_of_debug (hdebug : o.debug = false) (hsize : program.length < 2 ^ 63)
    (heading : Text) (bound : Nat) :
    folder.carryOut? ⟨heading, { o with debug := true }.planFor program⟩ bound =
      (folder.carryOut? ⟨[], o.planFor program⟩ bound).map fun (reply, folder') =>
        (reply.under heading, folder') := by
  have hexecute : folder.carryOut? ⟨heading, .execute (.ofProgram program { tracing := true })⟩
      bound = (folder.carryOut? ⟨[], .execute (.ofProgram program {})⟩ bound).map
        fun (reply, folder') => (reply.under heading, folder') := by
    simp only [carryOut?, Reply.ofMachine?_of_tracing hsize, Option.map_map]
    rfl
  obtain ⟨_, compile, output, file⟩ := o
  cases hdebug
  cases compile with
  | false => exact hexecute
  | true =>
    cases output with
    | none => exact hexecute
    | some path =>
      change folder.carryOut? ⟨heading, .save path (Image.ofProgram program)⟩ bound =
        (folder.carryOut? ⟨[], .save path (Image.ofProgram program)⟩ bound).map _
      simp only [carryOut?]
      cases folder.write? path (Image.ofProgram program) with
      | error e => simp only [Option.map_some, Reply.failure_eq_under heading]
      | ok folder' => simp [Reply.under]; rfl

/-- Debugging only adds a listing, for every reader of arguments with the laws. Let a file
    hold a program. If that has a listing, the reply to a command line with debugging is
    the one without, in the same folder, with the hexadecimal digits of the program, its
    length and its listing in front of the output, each on a line of its own. Otherwise
    the file is an image, these digits, the length and the reason are all that is printed,
    nothing is executed and no image is written, even if one is asked for. -/
theorem debug_adds_listing {read : ArgumentReader} (hlaws : read.Laws)
    {arguments : List Text} {file : Bytes} (hoptions : read arguments = .ok o)
    (hdebug : o.debug = false) (hread : folder.read? o.file = .ok file)
    (hload : Image.load file = .ok program) (hsize : program.length < 2 ^ 63) :
    let debugging := "-d".toList :: arguments
    let ofLines (lines : List Text) := Utf8.encode (lines.flatMap (· ++ ['\n']))
    let heading := [Bytes.hex program, Decimal.ofNat program.length]
    (∀ lines, Listing.lines? program = .ok lines → ∀ bound,
      folder.respond? read debugging bound =
        (folder.respond? read arguments bound).map fun (reply, folder') =>
          (⟨ofLines (heading ++ lines) ++ reply.stdout, reply.ending⟩, folder')) ∧
    (∀ e, Listing.lines? program = .error e →
      Image.isImage file = true ∧
      (∃ message, ({ o with debug := true }.prepare file).plan = .fail message) ∧
      ∀ bound, folder.respond? read debugging bound =
        some (⟨ofLines (heading ++ ["Error: ".toList ++ e.message]), .exit 1⟩, folder)) ∧
    (Image.isImage file = false → ∃ lines, Listing.lines? program = .ok lines) := by
  intro debugging ofLines heading
  have hdebugging : read debugging = .ok { o with debug := true } :=
    hlaws.debug hoptions hdebug
  have hread' : folder.read? ({ o with debug := true } : Options).file = .ok file := hread
  have hsource (himage : Image.isImage file = false) :
      ∃ lines, Listing.lines? program = .ok lines := by
    obtain ⟨text, hassembled⟩ := Image.exists_assemble_of_load himage hload
    exact Listing.exists_lines?_of_assemble hassembled
  refine ⟨fun lines hlines bound => ?_, fun e hlines => ?_, hsource⟩
  · have htext : programLines program ++ lines.flatMap (· ++ ['\n']) =
        (heading ++ lines).flatMap (· ++ ['\n']) := programLines_append program lines
    rw [respond?_eq_carryOut? hdebugging hread', respond?_eq_carryOut? hoptions hread,
      Options.prepare_of_plain hload hdebug, Options.prepare_of_listed hload rfl hlines, htext,
      carryOut?_of_debug hdebug hsize]
    rfl
  · have himage : Image.isImage file = true := by
      refine Bool.of_not_eq_false fun hsourceText => ?_
      obtain ⟨lines, hlisted⟩ := hsource hsourceText
      cases hlines.symm.trans hlisted
    have hfails : { o with debug := true }.prepare file = ⟨programLines program, .fail e.message⟩ :=
      Options.prepare_of_unlisted hload rfl hlines
    refine ⟨himage, ⟨e.message, by rw [hfails]⟩, fun bound => ?_⟩
    have htext := programLines_append program ["Error: ".toList ++ e.message]
    rw [List.flatMap_singleton] at htext
    have hprinted : Utf8.encode (programLines program ++ errorLine e.message) =
        ofLines (heading ++ ["Error: ".toList ++ e.message]) := congrArg Utf8.encode htext
    calc folder.respond? read debugging bound
        = folder.carryOut? ⟨programLines program, .fail e.message⟩ bound := by
          rw [respond?_eq_carryOut? hdebugging hread', hfails]
      _ = some (⟨Utf8.encode (programLines program ++ errorLine e.message), .exit 1⟩, folder) :=
          rfl
      _ = _ := by rw [hprinted]

/-- A source that halts, and an image that halts before a byte which is no opcode. With
    debugging the source is listed and halts as before, and the image is not executed. -/
theorem debug_adds_listing_of_both_kinds :
    let image := Image.ofProgram [Opcode.halt.byte, 7, 255]
    let folder : Folder := ⟨[("in".toList, Utf8.encode "HALT 7".toList), ("image".toList, image)]⟩
    folder.respond? .plain ["in".toList] 1 = some (⟨[], .exit 7⟩, folder) ∧
    folder.respond? .plain ["-d".toList, "in".toList] 1 =
      some (⟨Utf8.encode "0007\n2\n0000: HALT 7\n".toList, .exit 7⟩, folder) ∧
    folder.respond? .plain ["image".toList] 1 = some (⟨[], .exit 7⟩, folder) ∧
    folder.respond? .plain ["-d".toList, "image".toList] 1 =
      some (⟨Utf8.encode "0007ff\n3\nError: unknown opcode 0xff at offset 2\n".toList, .exit 1⟩,
        folder) := by
  intro image folder
  have hsource : folder.respond? .plain ["in".toList] 1 = some (⟨[], .exit 7⟩, folder) := by
    decide +kernel
  have himage : folder.respond? .plain ["image".toList] 1 = some (⟨[], .exit 7⟩, folder) := by
    decide +kernel
  have hread : folder.read? "in".toList = .ok (Utf8.encode "HALT 7".toList) := by decide +kernel
  have hread' : folder.read? "image".toList = .ok image := by decide +kernel
  have hload : Image.load (Utf8.encode "HALT 7".toList) = .ok [Opcode.halt.byte, 7] := by
    decide +kernel
  have hload' : Image.load image = .ok [Opcode.halt.byte, 7, 255] := by decide +kernel
  have hlaws : ArgumentReader.plain.Laws := ArgumentReader.laws_plain
  have hoptions (path : Text) (h : ArgumentReader.isValue path = true) :
      ArgumentReader.plain [path] = .ok ⟨false, false, none, path⟩ := hlaws.file h
  obtain ⟨hlisted, -, -⟩ :=
    debug_adds_listing hlaws (hoptions "in".toList rfl) rfl hread hload (by decide)
  obtain ⟨-, hfails, -⟩ :=
    debug_adds_listing hlaws (hoptions "image".toList rfl) rfl hread' hload' (by decide)
  have hdebugged := hlisted ["0000: HALT 7".toList] (by decide +kernel) 1
  rw [hsource] at hdebugged
  obtain ⟨-, -, hfailed⟩ := hfails (.unknownOpcode 255 2) (by decide +kernel)
  exact ⟨hsource, hdebugged.trans (by decide +kernel), himage,
    (hfailed 1).trans (by decide +kernel)⟩

end Folder

end StackMachine
