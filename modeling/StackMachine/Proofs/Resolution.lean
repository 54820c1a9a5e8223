-- SUMMARY: Label references are resolved to the offsets of their labels, as if those had been written.
import StackMachine.Proofs.Substitution

/-!
# Resolved labels

A source may be rewritten so that every reference to a label is the address of
the label in digits. Assembling the rewritten source goes step by step like
assembling the source itself, with statements whose references are settled, so
both give one program.
-/

namespace StackMachine

/-! ## Rewriting the source -/

/-- The line with the address of a label in place of the reference to it. -/
def SourceLine.resolve (labels : Labels) (line : Text) : Text :=
  match (SourceLine.parse line).reference? with
  | none => line
  | some (name, _) =>
    match labels.lookup name with
    | none => line
    | some address => SourceLine.replaceLast line (name.length + 1) (Decimal.ofNat address)

/-- The source with addresses in place of all references. -/
def Assembly.resolveSource (labels : Labels) (source : Text) : Text :=
  ['\n'].intercalate ((Text.cut (· = '\n') source).map (SourceLine.resolve labels))

namespace Decimal

theorem ofNat_ne_nil (n : Nat) : ofNat n ≠ [] :=
  Nat.toDigits_ne_nil

theorem isDigit_of_mem_ofNat {n : Nat} {c : Char} (h : c ∈ ofNat n) : c.isDigit = true :=
  Nat.isDigit_of_mem_toDigits (by decide) (by decide) h

theorem ne_of_mem_ofNat {n : Nat} {c d : Char} (h : c ∈ ofNat n) (hd : d.isDigit = false) :
    c ≠ d := by
  rintro rfl
  rw [isDigit_of_mem_ofNat h] at hd
  cases hd

theorem isBlank_of_isDigit {c : Char} (h : c.isDigit = true) : Text.isBlank c = false := by
  rw [Char.isDigit, Bool.and_eq_true, decide_eq_true_eq, decide_eq_true_eq] at h
  have hlow : 48 ≤ c.toNat := h.1
  have hhigh : c.toNat ≤ 57 := h.2
  simp only [Text.isBlank, Text.blankRanges, List.any_cons, List.any_nil, Bool.or_false,
    Bool.or_eq_false_iff, Bool.and_eq_false_iff, decide_eq_false_iff_not]
  omega

theorem isWord_ofNat (n : Nat) : (ofNat n).IsWord :=
  ⟨ofNat_ne_nil n, fun _ hc => isBlank_of_isDigit (isDigit_of_mem_ofNat hc)⟩

theorem quoteFree_ofNat (n : Nat) : SourceLine.QuoteFree (ofNat n) := by
  intro c hc
  have hdouble : c ≠ '"' := ne_of_mem_ofNat hc (by decide)
  have hsingle : c ≠ '\'' := ne_of_mem_ofNat hc (by decide)
  simp [SourceLine.isQuote, hdouble, hsingle]

/-- An address that fits a slot is read back from its digits. -/
theorem parse?_ofNat {n : Nat} (h : Slot.Fits n) : parse? (ofNat n) = some (n : Int) := by
  have hword : IsWord n := by
    have hfits := Slot.fits_iff.1 h
    exact ⟨by omega, by omega⟩
  have hinteger : integer? (ofNat n) = some (n : Int) := by
    have hnatural := natural?_ofNat n
    cases hdigits : ofNat n with
    | nil => exact absurd hdigits (ofNat_ne_nil n)
    | cons c rest =>
      have hc : c ∈ ofNat n := by
        rw [hdigits]
        exact List.mem_cons_self
      rw [hdigits] at hnatural
      unfold integer?
      split
      · rename_i hminus
        exact absurd (List.cons.inj hminus).1 (ne_of_mem_ofNat hc (by decide))
      · rename_i hplus
        exact absurd (List.cons.inj hplus).1 (ne_of_mem_ofNat hc (by decide))
      · rw [hnatural]
        rfl
  rw [parse?, hinteger, Option.filter_some, if_pos (by simpa using hword)]

end Decimal

namespace SourceLine

variable {labels : Labels} {t line line' : Text}

theorem parse_congr (h : Text.trim line = Text.trim line') : parse line = parse line' := by
  rw [parse, parse, h]

theorem resolve_eq_nil_iff : resolve labels t = [] ↔ t = [] := by
  unfold resolve
  split
  · exact Iff.rfl
  · rename_i name before href
    split
    · exact Iff.rfl
    · rename_i address _
      constructor
      · intro h
        have hnil : Decimal.ofNat address = [] := by
          simp only [replaceLast, List.append_eq_nil_iff] at h
          exact h.1.2
        exact absurd hnil (Decimal.ofNat_ne_nil address)
      · rintro rfl
        cases href

/-- Rewriting a line brings in digits only. -/
theorem mem_resolve {c : Char} (h : c ∈ resolve labels t) : c ∈ t ∨ c.isDigit = true := by
  unfold resolve at h
  split at h
  · exact .inl h
  · split at h
    · exact .inl h
    · simp only [replaceLast, List.mem_append] at h
      obtain (h | h) | h := h
      · obtain ⟨blanks, hsplit, -⟩ := Text.exists_trimRight (stripComment t)
        have hstrip : c ∈ stripComment t := by
          rw [hsplit]
          exact List.mem_append_left blanks (List.mem_of_mem_take h)
        exact .inl (beforeComment_subset none t hstrip)
      · exact .inr (Decimal.isDigit_of_mem_ofNat h)
      · exact .inl (List.mem_of_mem_drop h)

end SourceLine

/-- The lines of the rewritten source are those of the source, each rewritten. -/
theorem Assembly.forall₂_resolveSource (labels : Labels) (source : Text) :
    List.Forall₂ (fun line line' => ∃ s, SourceLine.parse line = SourceLine.parse s ∧
        SourceLine.parse line' = SourceLine.parse (SourceLine.resolve labels s))
      (Text.lines source) (Text.lines (resolveSource labels source)) := by
  have hcut : Text.cut (· = '\n') (resolveSource labels source) =
      (Text.cut (· = '\n') source).map (SourceLine.resolve labels) := by
    refine Text.cut_intercalate (by decide) ?_ fun s hs c hc => ?_
    · rw [ne_eq, List.map_eq_nil_iff]
      exact Text.cut_ne_nil _ _
    · obtain ⟨t, ht, rfl⟩ := List.mem_map.1 hs
      obtain hc | hdigit := SourceLine.mem_resolve hc
      · exact Text.not_of_mem_cut ht c hc
      · rw [decide_eq_false_iff_not]
        rintro rfl
        cases hdigit
  unfold Text.lines
  rw [hcut]
  refine (Text.forall₂_linesOf (fun _ => SourceLine.resolve_eq_nil_iff) _).imp ?_
  rintro line line' ⟨s, hline, hline'⟩
  exact ⟨s, SourceLine.parse_congr hline, SourceLine.parse_congr hline'⟩

/-! ## Settled statements -/

/-- The argument with the address of a label in place of a reference to it. -/
def Argument.settle (labels : Labels) : Argument → Argument
  | operand o => operand o
  | reference name =>
    match labels.lookup name with
    | none => reference name
    | some address => operand (.integer address)

def Statement.settle (labels : Labels) (s : Statement) : Statement :=
  { s with arguments := s.arguments.map (Argument.settle labels) }

def Assembly.settle (labels : Labels) (a : Assembly) : Assembly :=
  { a with statements := a.statements.map (Statement.settle labels) }

namespace Argument

variable {labels : Labels} {layout : Layout} {t t' : Text}

theorem settle_reference {name : Text} {address : Nat} (h : labels.lookup name = some address) :
    settle labels (.reference name) = .operand (.integer address) := by
  rw [settle, h]

theorem map_settle_operands (operands : List Operand) :
    (operands.map operand).map (settle labels) = operands.map operand := by
  rw [List.map_map]
  rfl

theorem length_bytes_settle (argument : Argument) :
    (settle labels argument).bytes.length = argument.bytes.length := by
  cases argument with
  | operand o => rfl
  | reference name =>
    cases hfound : labels.lookup name with
    | none => simp only [settle, hfound]
    | some address =>
      rw [settle_reference hfound]
      exact Slot.length_encode _

theorem Stands.settle {argument : Argument} {o : Operand} (h : Stands labels argument o) :
    Stands labels (argument.settle labels) o := by
  cases h with
  | operand o => exact .operand o
  | reference found _ =>
    rw [settle_reference found]
    exact .operand _

/-- Operands with an address are as many words as the layout has operands. -/
theorem split_of_addressOffset? {offset : Nat} (h : layout.addressOffset? = some offset) :
    split layout t =
      if (Text.words t).length = layout.kinds.length then .ok (layout.kinds.zip (Text.words t))
      else .error (.arity layout) := by
  cases layout with
  | address | registerAddress => rfl
  | _ => cases h

/-- Another last word that is read as an address is another last argument. -/
theorem readAll_append {offset : Nat} {w w' : Text} {before : List Text}
    {arguments : List Argument} {last last' : Argument}
    (hoffset : layout.addressOffset? = some offset)
    (h : readAll layout t = (arguments ++ [last], none))
    (hwords : Text.words t = before ++ [w]) (hwords' : Text.words t' = before ++ [w'])
    (hlast : Reads .address w' last') :
    readAll layout t' = (arguments ++ [last'], none) := by
  obtain ⟨parts, hsplit, hreads⟩ := readAll_eq_none.1 h
  obtain ⟨n, -, hkinds⟩ := Layout.kinds_of_addressOffset? hoffset
  rw [split_of_addressOffset? hoffset] at hsplit
  split at hsplit
  · rename_i hlength
    cases hsplit
    have hbefore : (List.replicate n OperandKind.register).length = before.length := by
      simpa [hwords, hkinds] using hlength.symm
    have hlength' : (Text.words t').length = layout.kinds.length := by
      rw [← hlength, hwords, hwords']
      simp
    rw [hkinds, hwords, List.zip_append hbefore] at hreads
    obtain ⟨front, rest, hfront, hrest, harguments⟩ := forall₂_append_left hreads
    obtain ⟨_, _, -, hnil, rfl⟩ := List.forall₂_cons_left_iff.1 hrest
    cases hnil
    obtain ⟨rfl, -⟩ := List.append_inj' harguments rfl
    refine readAll_eq_none.2 ⟨_, (split_of_addressOffset? hoffset).trans (if_pos hlength'), ?_⟩
    rw [hkinds, hwords', List.zip_append hbefore]
    exact List.rel_append hfront (.cons hlast .nil)
  · cases hsplit

end Argument

end StackMachine
