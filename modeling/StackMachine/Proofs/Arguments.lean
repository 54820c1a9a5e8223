-- SUMMARY: What the arguments of a source line are, part by part.
import Mathlib.Data.List.Forall2
import StackMachine.Assembly.Argument
import StackMachine.Proofs.Slots

/-!
# Arguments

The text of an instruction's operands is split into parts, one for each operand
that the layout lists, and each part is read as what its kind allows.
`Argument.Reads` says what that is.
-/

namespace StackMachine.Argument

/-- What a part of the text of the kind is read as. -/
inductive Reads : OperandKind → Text → Argument → Prop
  | exitCode {t : Text} {code : UInt8} (number : Decimal.parse? t = some (code.toNat : Int)) :
      Reads .exitCode t (.operand (.exitCode code))
  | register {name : Text} {r : Register} (named : Register.ofName? name = some r) :
      Reads .register ('$' :: name) (.operand (.register r))
  | integer {t : Text} {v : Int} (number : Decimal.parse? t = some v) (fits : Slot.Fits v) :
      Reads .integer t (.operand (.integer v))
  | address {t : Text} {v : Int} (plain : ∀ name, t ≠ '%' :: name)
      (number : Decimal.parse? t = some v) (fits : Slot.Fits v) :
      Reads .address t (.operand (.integer v))
  | reference {name : Text} (named : name ≠ []) : Reads .address ('%' :: name) (.reference name)
  | string {q : Char} {contents : Text} (quote : SourceLine.isQuote q = true)
      (short : (Utf8.encode contents).length ≤ maxStringLength) :
      Reads .string (q :: contents ++ [q]) (.operand (.string (Utf8.encode contents)))

variable {t : Text} {argument : Argument}

/-! ## Reading one argument -/

theorem readNumber_eq_ok {v : Int} : readNumber t = .ok v ↔ Decimal.parse? t = some v := by
  unfold readNumber
  cases Decimal.parse? t with
  | none => exact ⟨fun h => (nomatch h), fun h => (nomatch h)⟩
  | some w =>
    constructor
    · intro h
      cases h
      rfl
    · intro h
      cases h
      rfl

theorem reads_of_readExitCode (h : readExitCode t = .ok argument) :
    Reads .exitCode t argument := by
  unfold readExitCode at h
  cases hv : readNumber t with
  | error mistake =>
    rw [hv] at h
    cases h
  | ok v =>
    rw [hv] at h
    change (if 0 ≤ v ∧ v ≤ 255 then _ else _ : Except Mistake Argument) = _ at h
    split at h
    · rename_i hrange
      cases h
      have hcode : (v.toNat.toUInt8.toNat : Int) = v := by
        rw [Slot.toNat_toUInt8 (by omega)]
        exact Int.toNat_of_nonneg hrange.1
      refine .exitCode ?_
      rw [hcode]
      exact readNumber_eq_ok.1 hv
    · cases h

theorem reads_of_readRegister (h : readRegister t = .ok argument) :
    Reads .register t argument := by
  unfold readRegister at h
  split at h
  · rename_i name
    cases hname : Register.ofName? name with
    | none =>
      rw [hname] at h
      cases h
    | some r =>
      rw [hname] at h
      cases h
      exact .register hname
  · cases h

theorem number_of_readInteger (h : readInteger t = .ok argument) :
    ∃ v, Decimal.parse? t = some v ∧ Slot.Fits v ∧ argument = .operand (.integer v) := by
  unfold readInteger at h
  cases hv : readNumber t with
  | error mistake =>
    rw [hv] at h
    cases h
  | ok v =>
    rw [hv] at h
    change (if Slot.Fits v then _ else _ : Except Mistake Argument) = _ at h
    split at h
    · rename_i hfits
      cases h
      exact ⟨v, readNumber_eq_ok.1 hv, hfits, rfl⟩
    · cases h

theorem reads_of_readAddress (h : readAddress t = .ok argument) : Reads .address t argument := by
  unfold readAddress at h
  split at h
  · cases h
  · rename_i label hlabel
    cases h
    exact .reference hlabel
  · rename_i hplain
    obtain ⟨v, hv, hfits, rfl⟩ := number_of_readInteger h
    exact .address hplain hv hfits

/-- A literal is its contents between two quotes of one kind. -/
theorem eq_of_literal? {contents : Text} (h : literal? t = some contents) :
    ∃ q, SourceLine.isQuote q = true ∧ t = q :: contents ++ [q] := by
  cases t with
  | nil => cases h
  | cons q t =>
    by_cases hquote : SourceLine.isQuote q ∧ t.getLast? = some q
    · rw [literal?, if_pos hquote] at h
      cases h
      refine ⟨q, hquote.1, congrArg (q :: ·) ?_⟩
      exact (List.dropLast_append_getLast? q hquote.2).symm
    · rw [literal?, if_neg hquote] at h
      cases h

theorem reads_of_readString (h : readString t = .ok argument) : Reads .string t argument := by
  unfold readString at h
  cases hliteral : literal? t with
  | none =>
    rw [hliteral] at h
    cases h
  | some contents =>
    rw [hliteral] at h
    dsimp only at h
    split at h
    · rename_i hshort
      cases h
      obtain ⟨q, hquote, rfl⟩ := eq_of_literal? hliteral
      exact .string hquote hshort
    · cases h

theorem readInteger_of_number {v : Int} (hv : Decimal.parse? t = some v) (hfits : Slot.Fits v) :
    readInteger t = .ok (.operand (.integer v)) := by
  unfold readInteger
  rw [readNumber_eq_ok.2 hv]
  exact if_pos hfits

theorem read_of_reads {kind : OperandKind} (h : Reads kind t argument) :
    read kind t = .ok argument := by
  cases h with
  | @exitCode t code number =>
    have hrange : (0 : Int) ≤ code.toNat ∧ (code.toNat : Int) ≤ 255 := by
      have hlt : code.toNat < 256 := code.toNat_lt
      omega
    change readExitCode t = _
    unfold readExitCode
    rw [readNumber_eq_ok.2 number]
    refine (if_pos hrange).trans ?_
    rw [Int.toNat_natCast, Nat.toUInt8_eq, UInt8.ofNat_toNat]
    rfl
  | @register name r named =>
    change readRegister ('$' :: name) = _
    simp only [readRegister, named]
    rfl
  | integer number fits => exact readInteger_of_number number fits
  | address plain number fits =>
    change readAddress t = _
    unfold readAddress
    split
    · exact absurd rfl (plain [])
    · exact absurd rfl (plain _)
    · exact readInteger_of_number number fits
  | @reference name named =>
    change readAddress ('%' :: name) = _
    cases name with
    | nil => exact absurd rfl named
    | cons c name => rfl
  | @string q contents quote short =>
    have hliteral : literal? (q :: contents ++ [q]) = some contents := by
      rw [List.cons_append, literal?, if_pos ⟨quote, List.getLast?_concat⟩, List.dropLast_concat]
    change readString _ = _
    unfold readString
    rw [hliteral]
    exact if_pos short

theorem read_eq_ok {kind : OperandKind} : read kind t = .ok argument ↔ Reads kind t argument := by
  refine ⟨fun h => ?_, read_of_reads⟩
  cases kind with
  | exitCode => exact reads_of_readExitCode h
  | register => exact reads_of_readRegister h
  | integer =>
    obtain ⟨v, hv, hfits, rfl⟩ := number_of_readInteger h
    exact .integer hv hfits
  | address => exact reads_of_readAddress h
  | string => exact reads_of_readString h

/-! ## Reading the arguments of an instruction -/

theorem untilMistake_eq_none {results : List (Except Mistake Argument)}
    {arguments : List Argument} :
    untilMistake results = (arguments, none) ↔ results = arguments.map .ok := by
  induction results generalizing arguments with
  | nil => cases arguments <;> simp [untilMistake]
  | cons result results ih =>
    cases result with
    | error mistake => cases arguments <;> simp [untilMistake]
    | ok argument =>
      cases arguments with
      | nil => simp [untilMistake]
      | cons first arguments =>
        rw [List.map_cons, List.cons.injEq, ← ih, untilMistake, Prod.ext_iff, Prod.ext_iff]
        simp [and_assoc]

/-- Arguments without a mistake are read part by part. -/
theorem readAll_eq_none {layout : Layout} {arguments : List Argument} :
    readAll layout t = (arguments, none) ↔ ∃ parts, split layout t = .ok parts ∧
      List.Forall₂ (fun part argument => Reads part.1 part.2 argument) parts arguments := by
  unfold readAll
  cases split layout t with
  | error mistake => exact ⟨fun h => (nomatch h), fun ⟨_, h, _⟩ => (nomatch h)⟩
  | ok parts =>
    dsimp only
    rw [untilMistake_eq_none, ← List.forall₂_eq_eq_eq, List.forall₂_map_left_iff,
      List.forall₂_map_right_iff]
    simp only [read_eq_ok]
    constructor
    · exact fun h => ⟨parts, rfl, h⟩
    · rintro ⟨_, hparts, h⟩
      cases hparts
      exact h

/-- The parts of an instruction's text are of the kinds that its layout lists. -/
theorem map_fst_of_split {layout : Layout} {parts : List (OperandKind × Text)}
    (h : split layout t = .ok parts) : parts.map Prod.fst = layout.kinds := by
  unfold split at h
  split at h
  · cases h
    rfl
  · cases h
    rfl
  · cases h
  · split at h
    · rename_i hlength
      cases h
      exact List.map_fst_zip (Nat.le_of_eq hlength.symm)
    · cases h

end StackMachine.Argument
