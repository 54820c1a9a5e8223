-- SUMMARY: What is written to a file of the folder by its path is read back by the path.
import StackMachine.Folder

/-!
# Files of a folder

A path names a file of the folder itself if it never leaves the folder: all of its
segments but the last are single dots, and the last is a name. Such a path leads to that
name in every folder, so that a file can be written there and is read back as it was
written. A name without slashes is a path that names itself.
-/

namespace StackMachine

/-! ## Paths that stay in the folder -/

/-- The path leads to a file's name in the folder it starts in, whatever the folder. -/
inductive Path.Names (path name : Text) : Prop
  | of (dots : List Text)
      (reads : Path.ofText? path = .ok ⟨.inside, dots ++ [name], false⟩)
      (stays : ∀ segment ∈ dots, segment = ['.'])
      (ne_dot : name ≠ ['.'])
      (ne_dots : name ≠ ['.', '.'])
      (short : (Utf8.encode name).length ≤ Folder.nameLimit)

/-- A name is a path to itself. -/
theorem Path.names_self {name : Text} (hne : name ≠ []) (hslash : '/' ∉ name)
    (hdot : name ≠ ['.']) (hdots : name ≠ ['.', '.'])
    (hshort : (Utf8.encode name).length ≤ Folder.nameLimit) : Path.Names name name := by
  refine .of [] ?_ nofun hdot hdots hshort
  have hlength : ¬Path.sizeLimit ≤ (Utf8.encode name).length := by
    unfold Path.sizeLimit
    unfold Folder.nameLimit at hshort
    omega
  have hcut : Text.cut (· = '/') name = [name] :=
    Text.cut_eq_singleton fun c hc => decide_eq_false fun h => hslash (h ▸ hc)
  have hstart : name.head? ≠ some '/' := fun h => hslash (List.mem_of_head? h)
  have hend : name.getLast? ≠ some '/' := fun h => hslash (List.mem_of_getLast? h)
  rw [Path.ofText?, if_neg hne, if_neg hlength, hcut, if_neg hstart]
  simp [hne, hend]

/-! ## Reading and writing -/

namespace Folder

variable {folder : Folder} {path name : Text}

theorem foldlM_enter_of_dots {dots : List Text} (h : ∀ segment ∈ dots, segment = ['.'])
    (location : Location) : dots.foldlM folder.enter location = .ok location := by
  induction dots with
  | nil => rfl
  | cons segment dots ih =>
    have hdot : folder.enter location segment = .ok location := if_pos (h _ List.mem_cons_self)
    rw [List.foldlM_cons, hdot]
    exact ih fun s hs => h s (List.mem_cons_of_mem _ hs)

theorem target?_of_dots {dots : List Text} (hstays : ∀ segment ∈ dots, segment = ['.'])
    (hdot : name ≠ ['.']) (hdots : name ≠ ['.', '.']) :
    folder.target? ⟨.inside, dots ++ [name], false⟩ = .ok (.name .inside name) := by
  unfold target?
  simp only [List.dropLast_concat, List.getLast?_concat, foldlM_enter_of_dots hstays]
  rfl

theorem file?_of_short (hshort : (Utf8.encode name).length ≤ nameLimit) :
    folder.file? .inside name = .ok (folder.files.lookup name) :=
  if_neg (Nat.not_lt.2 hshort)

/-- A path that names a file gives the contents of that file. -/
theorem read?_of_names (h : Path.Names path name) :
    folder.read? path =
      match folder.files.lookup name with
      | none => .error .missing
      | some contents => .ok contents := by
  obtain ⟨dots, reads, stays, ne_dot, ne_dots, short⟩ := h
  simp only [read?, reads, target?_of_dots stays ne_dot ne_dots, file?_of_short short, bind,
    Except.bind]
  cases folder.files.lookup name <;> rfl

theorem write?_of_names (h : Path.Names path name) (contents : Bytes) :
    folder.write? path contents = .ok ⟨(name, contents) :: folder.files⟩ := by
  obtain ⟨dots, reads, stays, ne_dot, ne_dots, short⟩ := h
  simp only [write?, reads, target?_of_dots stays ne_dot ne_dots, file?_of_short short, bind,
    Except.bind]
  rfl

/-- What was written last to a file is read. -/
theorem read?_written (h : Path.Names path name) (contents : Bytes) :
    (Folder.mk ((name, contents) :: folder.files)).read? path = .ok contents := by
  rw [read?_of_names h, List.lookup_cons, beq_self_eq_true]

end Folder

end StackMachine
