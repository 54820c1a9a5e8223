-- SUMMARY: A folder of files: what a path leads to, and reading and writing by path.
import StackMachine.Text.Utf8

/-!
# Folders

A path is followed one segment at a time from the folder it starts in. All of
its segments but the last have to be folders, and a segment of one or two dots
is one. Nothing is known of the folders around the given one: no name is found
in them, and what is written there is out of sight. `Folder.read?` and
`Folder.write?` do with a path what a program does that opens a file.
-/

namespace StackMachine

/-! ## Errors -/

/-- Why a path names no file that can be read or written. -/
inductive PathError where
  | missing
  | notDirectory
  | isDirectory
  | nameTooLong
  deriving DecidableEq, Repr

namespace PathError

/-- The number by which a system knows the error. -/
def code : PathError → Nat
  | missing => 2
  | notDirectory => 20
  | isDirectory => 21
  | nameTooLong => 36

def ofCode? (n : Nat) : Option PathError :=
  [missing, notDirectory, isDirectory, nameTooLong].find? (·.code = n)

theorem ofCode?_code (e : PathError) : ofCode? e.code = some e := by
  cases e <;> rfl

def description : PathError → Text
  | missing => "No such file or directory".toList
  | notDirectory => "Not a directory".toList
  | isDirectory => "Is a directory".toList
  | nameTooLong => "File name too long".toList

def message (e : PathError) : Text :=
  e.description ++ " (os error ".toList ++ Decimal.ofNat e.code ++ [')']

end PathError

/-! ## Paths -/

/-- The folder itself, or some folder around it. -/
inductive Location where
  | inside
  | outside
  deriving DecidableEq, Repr

/-- A path, cut at its slashes. A slash that ends it asks for a folder. -/
structure Path where
  start : Location
  segments : List Text
  asksFolder : Bool
  deriving DecidableEq, Repr

namespace Path

/-- Paths have fewer bytes than this. -/
def sizeLimit : Nat := 4096

def ofText? (t : Text) : Except PathError Path :=
  if t = [] then .error .missing
  else if sizeLimit ≤ (Utf8.encode t).length then .error .nameTooLong
  else .ok {
    start := if t.head? = some '/' then .outside else .inside
    segments := (Text.cut (· = '/') t).filter (· ≠ [])
    asksFolder := t.getLast? = some '/' }

end Path

/-! ## Folders -/

structure Folder where
  files : List (Text × Bytes)
  deriving DecidableEq, Repr

namespace Folder

/-- Names have at most so many bytes. -/
def nameLimit : Nat := 255

/-- The file with a name, if there is one. -/
def file? (folder : Folder) (location : Location) (name : Text) :
    Except PathError (Option Bytes) :=
  if nameLimit < (Utf8.encode name).length then .error .nameTooLong
  else match location with
    | .inside => .ok (folder.files.lookup name)
    | .outside => .ok none

/-- The folder that a segment leads to. -/
def enter (folder : Folder) (location : Location) (segment : Text) :
    Except PathError Location :=
  if segment = ['.'] then .ok location
  else if segment = ['.', '.'] then .ok .outside
  else do
    match ← folder.file? location segment with
    | some _ => throw .notDirectory
    | none => throw .missing

/-- What a path leads to: a folder, or a name in one that may be a file's. -/
inductive Target where
  | folder
  | name (location : Location) (name : Text)
  deriving DecidableEq, Repr

def target? (folder : Folder) (path : Path) : Except PathError Target := do
  let location ← path.segments.dropLast.foldlM folder.enter path.start
  match path.segments.getLast? with
  | none | some ['.'] | some ['.', '.'] => return .folder
  | some name => return .name location name

def read? (folder : Folder) (path : Text) : Except PathError Bytes := do
  let path ← Path.ofText? path
  match ← folder.target? path with
  | .folder => throw .isDirectory
  | .name location name =>
    match ← folder.file? location name with
    | none => throw .missing
    | some contents => if path.asksFolder then throw .notDirectory else return contents

/-- Put a file in the place of the one with its name. A path that asks for a
    folder is refused before the name is looked at. -/
def write? (folder : Folder) (path : Text) (contents : Bytes) : Except PathError Folder := do
  let path ← Path.ofText? path
  match ← folder.target? path with
  | .folder => throw .isDirectory
  | .name location name =>
    if path.asksFolder then throw .isDirectory
    discard (folder.file? location name)
    match location with
    | .inside => return ⟨(name, contents) :: folder.files⟩
    | .outside => return folder

end Folder

end StackMachine
