-- SUMMARY: What a listing shows of numbers, names and plain strings is read back as source text.
import StackMachine.Proofs.Resolution

/-!
# Plain text

The words of a listing are made of letters, digits and two signs, and a plain
string operand is shown between double quotes as it is. Reading any of these as
source text gives the operand back.
-/

namespace StackMachine

/-! ## Plain strings -/

namespace Bytes

/-- The bytes are characters of ASCII that a quoted text shows as they are. -/
def Plain (b : Bytes) : Prop :=
  ∀ c ∈ b, 0x20 ≤ c ∧ c ≤ 0x7E ∧ c ≠ 0x22 ∧ c ≠ 0x5C

instance (b : Bytes) : Decidable b.Plain :=
  List.decidableBAll _ b

/-- The characters of bytes of ASCII. -/
def ascii (b : Bytes) : Text :=
  b.map fun c => Char.ofNat c.toNat

/-- A plain byte is one character whichever way it is written. -/
theorem plain_char : ∀ n : Fin 128,
    0x20 ≤ n.val ∧ n.val ≤ 0x7E ∧ n.val ≠ 0x22 ∧ n.val ≠ 0x5C →
    Quoted.escape (Char.ofNat n) = [Char.ofNat n] ∧
      String.utf8EncodeChar (Char.ofNat n) = [n.val.toUInt8] ∧
      Char.ofNat n ≠ '"' ∧ Char.ofNat n ≠ '\n' := by
  decide +kernel

variable {b : Bytes} {c : UInt8}

theorem Plain.char (h : b.Plain) (hc : c ∈ b) :
    c < 0x80 ∧ Quoted.escape (Char.ofNat c.toNat) = [Char.ofNat c.toNat] ∧
      String.utf8EncodeChar (Char.ofNat c.toNat) = [c] ∧
      Char.ofNat c.toNat ≠ '"' ∧ Char.ofNat c.toNat ≠ '\n' := by
  obtain ⟨hlow, hhigh, hquote, hslash⟩ := h c hc
  have hlt : c.toNat < 128 := Nat.lt_of_le_of_lt (UInt8.le_iff_toNat_le.1 hhigh) (by decide)
  have hplain := plain_char ⟨c.toNat, hlt⟩ ⟨UInt8.le_iff_toNat_le.1 hlow,
    UInt8.le_iff_toNat_le.1 hhigh, fun h => hquote (UInt8.toNat_inj.1 h),
    fun h => hslash (UInt8.toNat_inj.1 h)⟩
  have hbyte : c.toNat.toUInt8 = c := UInt8.ofNat_toNat
  simp only [hbyte] at hplain
  exact ⟨UInt8.lt_iff_toNat_lt.2 hlt, hplain⟩

theorem Plain.tail (h : Plain (c :: b)) : b.Plain :=
  fun d hd => h d (List.mem_cons_of_mem c hd)

theorem Plain.ne_of_mem_ascii {d : Char} (h : b.Plain) (hd : d ∈ b.ascii) :
    d ≠ '"' ∧ d ≠ '\n' := by
  obtain ⟨c, hc, rfl⟩ := List.mem_map.1 hd
  exact (h.char hc).2.2.2

theorem Plain.decodeLossy_eq (h : b.Plain) : Utf8.decodeLossy b = b.ascii := by
  unfold Utf8.decodeLossy Utf8.scan
  induction b with
  | nil => rfl
  | cons c b ih =>
    have hc := (h.char List.mem_cons_self).1
    rw [Utf8.scanFrom, Utf8.start, if_pos hc, List.map_append, ih h.tail]
    rfl

theorem Plain.encode_ascii (h : b.Plain) : Utf8.encode b.ascii = b := by
  unfold Utf8.encode ascii
  induction b with
  | nil => rfl
  | cons c b ih =>
    obtain ⟨-, -, hc, -⟩ := h.char List.mem_cons_self
    rw [List.map_cons, List.flatMap_cons, hc, ih h.tail]
    rfl

theorem Plain.flatMap_escape (h : b.Plain) : b.ascii.flatMap Quoted.escape = b.ascii := by
  unfold ascii
  induction b with
  | nil => rfl
  | cons c b ih =>
    obtain ⟨-, hc, -⟩ := h.char List.mem_cons_self
    rw [List.map_cons, List.flatMap_cons, hc, ih h.tail]
    rfl

end Bytes

namespace Operand

/-- The operand is no string, or a plain one. -/
def Plain : Operand → Prop
  | string b => b.Plain
  | _ => True

instance : (o : Operand) → Decidable o.Plain
  | string b => inferInstanceAs (Decidable b.Plain)
  | exitCode _ | register _ | integer _ => isTrue trivial

/-- A plain string is shown between double quotes. -/
theorem render_string {b : Bytes} (h : b.Plain) :
    (string b).render = '"' :: b.ascii ++ ['"'] := by
  change Quoted.encode (Utf8.decodeLossy b) = _
  rw [h.decodeLossy_eq, Quoted.encode, h.flatMap_escape]
  rfl

end Operand

/-! ## Numbers -/

namespace Decimal

/-- An integer that fits a slot is read back from its digits. -/
theorem parse?_ofInt {v : Int} (h : Slot.Fits v) : parse? (ofInt v) = some v := by
  cases v with
  | ofNat n => exact parse?_ofNat h
  | negSucc n =>
    have hword : IsWord (Int.negSucc n) := by
      have hfits := Slot.fits_iff.1 h
      exact ⟨by omega, by omega⟩
    have hinteger : integer? (ofInt (.negSucc n)) = some (Int.negSucc n) := by
      rw [ofInt, integer?, natural?_ofNat]
      rfl
    rw [parse?, hinteger, Option.filter_some, if_pos (by simpa using hword)]

theorem isDigit_of_mem_padded {n : Nat} {c : Char} (h : c ∈ padded n) : c.isDigit = true := by
  rw [padded, List.leftpad, List.mem_append] at h
  obtain hzero | hdigit := h
  · rw [(List.mem_replicate.1 hzero).2]
    rfl
  · exact isDigit_of_mem_ofNat hdigit

theorem padded_ne_nil (n : Nat) : padded n ≠ [] := by
  rw [padded, List.leftpad, ne_eq, List.append_eq_nil_iff]
  exact fun h => ofNat_ne_nil n h.2

/-- Zeros in front do not change the number. -/
theorem natural?_padded (n : Nat) : natural? (padded n) = some n := by
  have hall : (padded n).all Char.isDigit = true := by
    simp only [List.all_eq_true]
    exact fun c hc => isDigit_of_mem_padded hc
  rw [natural?, if_pos ⟨padded_ne_nil n, hall⟩, padded, List.leftpad, Nat.ofDigitChars_append,
    Nat.ofDigitChars_replicate_zero, Nat.mul_zero]
  exact congrArg some Nat.ofDigitChars_ten_toDigits

theorem padded_injective : Function.Injective padded := by
  intro n k h
  have hsome := natural?_padded n
  rw [h, natural?_padded] at hsome
  exact (Option.some.inj hsome).symm

end Decimal

/-! ## Words -/

namespace Listing

/-- The characters of the words of a listing. -/
def isWordChar (c : Char) : Bool :=
  c.isAlphanum || c = '$' || c = '-'

/-- The text is a word of a listing. -/
def Word (t : Text) : Prop :=
  t ≠ [] ∧ ∀ c ∈ t, isWordChar c = true

theorem range_of_isWordChar {c : Char} (h : isWordChar c = true) :
    c.toNat = 0x24 ∨ c.toNat = 0x2D ∨ (0x30 ≤ c.toNat ∧ c.toNat ≤ 0x39) ∨
      (0x41 ≤ c.toNat ∧ c.toNat ≤ 0x5A) ∨ (0x61 ≤ c.toNat ∧ c.toNat ≤ 0x7A) := by
  simp only [isWordChar, Char.isAlphanum, Char.isAlpha, Char.isUpper, Char.isLower, Char.isDigit,
    Bool.or_eq_true, Bool.and_eq_true, decide_eq_true_eq] at h
  obtain (((hupper | hlower) | hdigit) | rfl) | rfl := h
  · exact .inr (.inr (.inr (.inl hupper)))
  · exact .inr (.inr (.inr (.inr hlower)))
  · exact .inr (.inr (.inl hdigit))
  · exact .inl rfl
  · exact .inr (.inl rfl)

/-- No delimiter of source text is a character of a word. -/
theorem not_delimiter_of_isWordChar {c : Char} (h : isWordChar c = true) :
    Text.isBlank c = false ∧ c ≠ ':' ∧ c ≠ ';' ∧ SourceLine.isQuote c = false := by
  have hrange := range_of_isWordChar h
  have hne {d : Char} (hd : c.toNat ≠ d.toNat) : c ≠ d := fun h => hd (congrArg Char.toNat h)
  have hblank : Text.isBlank c = false := by
    simp only [Text.isBlank, Text.blankRanges, List.any_cons, List.any_nil, Bool.or_false,
      Bool.or_eq_false_iff, Bool.and_eq_false_iff, decide_eq_false_iff_not]
    omega
  have hdouble : c ≠ '"' := hne (by change c.toNat ≠ 0x22; omega)
  have hsingle : c ≠ '\'' := hne (by change c.toNat ≠ 0x27; omega)
  refine ⟨hblank, hne (by change c.toNat ≠ 0x3A; omega), hne (by change c.toNat ≠ 0x3B; omega), ?_⟩
  simp [SourceLine.isQuote, hdouble, hsingle]

theorem isWordChar_of_isDigit {c : Char} (h : c.isDigit = true) : isWordChar c = true := by
  simp [isWordChar, Char.isAlphanum, h]

variable {t : Text}

theorem Word.isWord (h : Word t) : Text.IsWord t :=
  ⟨h.1, fun c hc => (not_delimiter_of_isWordChar (h.2 c hc)).1⟩

theorem Word.newline_not_mem (h : Word t) : '\n' ∉ t :=
  fun hc => by cases h.2 _ hc

theorem Word.cons {c : Char} (hc : isWordChar c = true) (h : Word t) : Word (c :: t) :=
  ⟨List.cons_ne_nil c t, fun d hd => by
    rcases List.mem_cons.1 hd with rfl | hd
    · exact hc
    · exact h.2 d hd⟩

theorem word_ofNat (n : Nat) : Word (Decimal.ofNat n) :=
  ⟨Decimal.ofNat_ne_nil n, fun _ hc => isWordChar_of_isDigit (Decimal.isDigit_of_mem_ofNat hc)⟩

theorem word_padded (n : Nat) : Word (Decimal.padded n) :=
  ⟨Decimal.padded_ne_nil n, fun _ hc => isWordChar_of_isDigit (Decimal.isDigit_of_mem_padded hc)⟩

theorem word_ofInt (v : Int) : Word (Decimal.ofInt v) := by
  cases v with
  | ofNat n => exact word_ofNat n
  | negSucc n => exact (word_ofNat (n + 1)).cons rfl

theorem word_mnemonic (op : Opcode) : Word op.mnemonic := by
  have hne : op.mnemonic ≠ [] := by cases op <;> decide
  have hall : op.mnemonic.all isWordChar = true := by cases op <;> decide
  exact ⟨hne, List.all_eq_true.1 hall⟩

theorem word_name (r : Register) : Word r.name := by
  have hall : r.name ≠ [] ∧ r.name.all isWordChar = true := by
    cases r with
    | general i => revert i; decide
    | pc | sp | fp | rt => decide
  exact ⟨hall.1, List.all_eq_true.1 hall.2⟩

/-- Only a string is shown as more than a word. -/
theorem word_render {o : Operand} (h : ∀ b, o ≠ .string b) : Word o.render := by
  cases o with
  | exitCode code => exact word_ofNat code.toNat
  | register r => exact (word_name r).cons rfl
  | integer v => exact word_ofInt v
  | string b => exact absurd rfl (h b)

end Listing

/-! ## Operands -/

/-- The text of an operand is read as the operand. -/
theorem Operand.OfKind.reads {kind : OperandKind} {o : Operand} (h : o.OfKind kind)
    (hplain : o.Plain) : Argument.Reads kind o.render (.operand o) := by
  cases h with
  | exitCode code =>
    refine .exitCode (Decimal.parse?_ofNat (Slot.fits_iff.2 ?_))
    have hlt : code.toNat < 256 := code.toNat_lt
    omega
  | register r => exact .register (Register.ofName?_name r)
  | integer fits => exact .integer (Decimal.parse?_ofInt fits) fits
  | @address v fits =>
    refine .address (fun name hname => ?_) (Decimal.parse?_ofInt fits) fits
    have hword := (Listing.word_ofInt v).2 '%' (by
      change Decimal.ofInt v = _ at hname
      rw [hname]
      exact List.mem_cons_self)
    cases hword
  | @string b short =>
    have hb : b.Plain := hplain
    have hread := @Argument.Reads.string '"' b.ascii rfl (by rw [hb.encode_ascii]; exact short)
    rwa [hb.encode_ascii, ← Operand.render_string hb] at hread

end StackMachine
