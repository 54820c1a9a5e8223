-- SUMMARY: The register file: reading and writing the fourteen registers.
import StackMachine.Register
import StackMachine.Value

/-!
# The register file

Every register can be read as a value. A special register takes integers only,
so writing may be refused; counting a special register up or down wraps around
at the ends of the 64-bit range.
-/

namespace StackMachine

structure RegisterFile where
  general : Vector Value 10
  pc : Int64
  sp : Int64
  fp : Int64
  rt : Int64
  deriving DecidableEq, Repr

namespace RegisterFile

/-- All registers hold zero. -/
def fresh : RegisterFile :=
  ⟨Vector.replicate 10 .zero, 0, 0, 0, 0⟩

/-! ## Special registers -/

/-- The integer in a special register. -/
def special? (file : RegisterFile) : Register → Option Int64
  | .general _ => none
  | .pc => some file.pc
  | .sp => some file.sp
  | .fp => some file.fp
  | .rt => some file.rt

/-- Change the integer in a special register. -/
def updateSpecial? (f : Int64 → Int64) (file : RegisterFile) : Register → Option RegisterFile
  | .general _ => none
  | .pc => some { file with pc := f file.pc }
  | .sp => some { file with sp := f file.sp }
  | .fp => some { file with fp := f file.fp }
  | .rt => some { file with rt := f file.rt }

/-! ## Any register -/

def get (file : RegisterFile) : Register → Value
  | .general i => file.general.get i
  | .pc => .int file.pc
  | .sp => .int file.sp
  | .fp => .int file.fp
  | .rt => .int file.rt

/-- Write a register. A byte string fits into the general registers only. -/
def set? (file : RegisterFile) : Register → Value → Option RegisterFile
  | .general i, v => some { file with general := file.general.set i.val v i.isLt }
  | r, .int i => file.updateSpecial? (fun _ => i) r
  | _, .bytes _ => none

/-! ## Laws -/

theorem get_eq_getElem (values : Vector Value 10) (i : Fin 10) : values.get i = values[i.val] :=
  rfl

@[simp] theorem get_fresh (r : Register) : fresh.get r = .zero := by
  cases r with
  | general i => simp [fresh, get, Vector.get]
  | pc => rfl
  | sp => rfl
  | fp => rfl
  | rt => rfl

@[simp] theorem isSome_special? (file : RegisterFile) (r : Register) :
    (file.special? r).isSome = r.isSpecial := by
  cases r <;> rfl

/-- A special register reads as the integer in it. -/
theorem get_of_special? {file : RegisterFile} {r : Register} {i : Int64}
    (h : file.special? r = some i) : file.get r = .int i := by
  cases r <;> cases h <;> rfl

/-- Changing a special register is reading it and writing what becomes of the integer. -/
theorem updateSpecial?_eq_set? (f : Int64 → Int64) (file : RegisterFile) (r : Register) :
    file.updateSpecial? f r = (file.special? r).bind fun i => file.set? r (.int (f i)) := by
  cases r <;> rfl

/-- Writing is refused exactly where a byte string meets a special register. -/
theorem set?_eq_none_iff (file : RegisterFile) (r : Register) (v : Value) :
    file.set? r v = none ↔ r.isSpecial ∧ ∃ b, v = .bytes b := by
  cases r <;> cases v <;> simp [set?, updateSpecial?, Register.isSpecial]

theorem get_set? {file file' : RegisterFile} {r : Register} {v : Value}
    (h : file.set? r v = some file') : file'.get r = v := by
  cases r <;> cases v <;>
    simp only [set?, updateSpecial?, Option.some.injEq, reduceCtorEq] at h <;> subst h <;>
    simp [get, get_eq_getElem]

/-- Writing one register leaves the others alone. -/
theorem get_set?_of_ne {file file' : RegisterFile} {r s : Register} {v : Value}
    (h : file.set? r v = some file') (hne : r ≠ s) : file'.get s = file.get s := by
  cases r <;> cases v <;>
    simp only [set?, updateSpecial?, Option.some.injEq, reduceCtorEq] at h <;> subst h <;>
    cases s <;> simp_all [get, get_eq_getElem, Fin.ext_iff]

/-! ## Text -/

/-- The text of all registers: name, equals sign and value of each. -/
def render (file : RegisterFile) : Text :=
  [' '].intercalate (Register.all.map fun r => r.name ++ '=' :: (file.get r).render)

end RegisterFile

end StackMachine
