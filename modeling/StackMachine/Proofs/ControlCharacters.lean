-- SUMMARY: What a machine shows of values, registers and faults holds no control character, nor do its bytes.
import StackMachine.Fault
import StackMachine.Proofs.ListingSource
import StackMachine.Proofs.Numerals
import StackMachine.Proofs.TextEncoding
import StackMachine.RegisterFile

/-!
# Control characters

The control characters of ASCII are those below the space, line feed and carriage
return among them, and the delete character. Quoting leaves none of them, and what
stands around quoted strings, numbers and names has none. A text without them is
encoded without their bytes, because the bytes of other characters begin at `0x80`.
-/

namespace StackMachine

/-! ## Texts -/

namespace Text

/-- Is the character a control character of ASCII? -/
def isControl (c : Char) : Bool :=
  c.toNat < 0x20 || c.toNat = 0x7F

theorem isControl_eq_false_iff {c : Char} :
    isControl c = false ↔ 0x20 ≤ c.toNat ∧ c.toNat ≠ 0x7F := by
  simp [isControl]

/-- No character of the text is a control character of ASCII. -/
def Visible (t : Text) : Prop :=
  ∀ c ∈ t, isControl c = false

instance (t : Text) : Decidable t.Visible :=
  List.decidableBAll _ t

variable {s t : Text}

theorem Visible.append (hs : s.Visible) (ht : t.Visible) : (s ++ t).Visible :=
  List.forall_mem_append.2 ⟨hs, ht⟩

theorem Visible.cons {c : Char} (hc : isControl c = false) (ht : t.Visible) : Visible (c :: t) :=
  List.forall_mem_cons.2 ⟨hc, ht⟩

theorem visible_intercalate {ts : List Text} (hs : s.Visible) (hts : ∀ t ∈ ts, t.Visible) :
    Visible (s.intercalate ts) := by
  intro c hc
  obtain hc | ⟨t, ht, hc⟩ := mem_intercalate hc
  · exact hs c hc
  · exact hts t ht c hc

theorem visible_of_word (h : Listing.Word t) : t.Visible := by
  intro c hc
  have hrange := Listing.range_of_isWordChar (h.2 c hc)
  rw [isControl_eq_false_iff]
  omega

end Text

open Text

/-! ## Numbers and quoted texts -/

theorem Hex.visible_toDigits (n : Nat) : Text.Visible (Nat.toDigits 16 n) := by
  have hdigit : ∀ k : Fin 16, isControl (Nat.digitChar k) = false := by decide
  intro c hc
  obtain ⟨k, hk, rfl⟩ := exists_digitChar_of_mem_toDigits (by decide) hc
  exact hdigit ⟨k, hk⟩

theorem Hex.visible_digits (width n : Nat) : (Hex.digits width n).Visible := by
  refine Visible.append (fun c hc => ?_) (visible_toDigits n)
  rw [(List.mem_replicate.1 hc).2]
  rfl

namespace Quoted

/-- A control character is written as other characters. -/
theorem visible_escape (c : Char) : (escape c).Visible := by
  unfold escape
  split
  · decide
  · decide
  · decide
  · decide
  · decide
  · decide
  · split
    · rename_i hprintable
      have hcontrol := isControl_eq_false_iff.2 (le_toNat_of_isPrintable hprintable)
      exact .cons hcontrol (List.forall_mem_nil _)
    · exact .cons rfl (.cons rfl (.cons rfl ((Hex.visible_digits 1 c.toNat).append (by decide))))

theorem visible_encode (t : Text) : (encode t).Visible := by
  refine .cons rfl (Visible.append (fun c hc => ?_) (by decide))
  obtain ⟨d, -, hc⟩ := List.mem_flatMap.1 hc
  exact visible_escape d c hc

end Quoted

/-! ## What a machine shows -/

theorem Value.visible_render (v : Value) : v.render.Visible := by
  cases v with
  | int i => exact visible_of_word (Listing.word_ofInt i.toInt)
  | bytes b => exact Quoted.visible_encode (Utf8.decodeLossy b)

theorem Value.visible_renderStack (stack : List Value) : (renderStack stack).Visible := by
  refine .cons rfl ((visible_intercalate (by decide) fun t ht => ?_).append (by decide))
  obtain ⟨v, -, rfl⟩ := List.mem_map.1 ht
  exact visible_render v

theorem RegisterFile.visible_render (file : RegisterFile) : file.render.Visible := by
  refine visible_intercalate (by decide) fun t ht => ?_
  obtain ⟨r, -, rfl⟩ := List.mem_map.1 ht
  exact (visible_of_word (Listing.word_name r)).append (.cons rfl (Value.visible_render _))

theorem Fault.visible_message (f : Fault) : f.message.Visible := by
  have hop (op : Opcode) := visible_of_word (Listing.word_mnemonic op)
  have hint (i : Int64) := visible_of_word (Listing.word_ofInt i.toInt)
  cases f with
  | typeMismatch op expected =>
    have hkind : expected.name.Visible := by cases expected <;> decide
    exact ((hop op).append (by decide)).append hkind
  | divisionByZero op => exact (hop op).append (by decide)
  | stackOverflow => decide
  | stackUnderflow op => exact Visible.append (by decide) (hop op)
  | stackPointerOutOfRange sp =>
    exact (Visible.append (by decide) (hint sp)).append (by decide)
  | jumpOutOfRange target =>
    exact (Visible.append (by decide) (hint target)).append (by decide)
  | paramOutOfRange index =>
    exact (Visible.append (by decide) (hint index)).append (by decide)
  | specialRegister r =>
    have hname := visible_of_word (Listing.word_name r)
    exact (Visible.append (by decide) hname).append (by decide)
  | output => decide
  | terminated => decide

/-! ## Bytes -/

namespace Utf8

theorem range_ofNat {n : Nat} (hlow : 0x20 ≤ n) (hne : n ≠ 0x7F) (hhigh : n < 256) :
    0x20 ≤ UInt8.ofNat n ∧ UInt8.ofNat n ≠ 0x7F := by
  have hn : (UInt8.ofNat n).toNat = n := by
    rw [UInt8.toNat_ofNat', Nat.mod_eq_of_lt hhigh]
  refine ⟨UInt8.le_iff_toNat_le.2 (hn.symm ▸ hlow), fun h => hne ?_⟩
  rw [← hn, h]
  rfl

/-- The bytes of a character are from `0x80` on if they are more than one, and one that
    is no control character is not a control character's byte. -/
theorem range_of_mem_encodeChar {c : Char} {b : UInt8} (hc : isControl c = false)
    (hb : b ∈ String.utf8EncodeChar c) : 0x20 ≤ b ∧ b ≠ 0x7F := by
  have hvalid : c.toNat < 0xD800 ∨ 0xDFFF < c.toNat ∧ c.toNat < 0x110000 := c.valid
  have hcontinuation (n : Nat) : 0x20 ≤ continuation n ∧ continuation n ≠ 0x7F :=
    range_ofNat (by omega) (by omega) (by omega)
  rw [encodeChar_eq] at hb
  rw [isControl_eq_false_iff] at hc
  generalize c.toNat = v at hvalid hb hc
  dsimp only at hb
  split_ifs at hb with h1 h2 h3 <;> simp only [List.mem_cons, List.not_mem_nil, or_false] at hb
  · subst hb
    exact range_ofNat hc.1 hc.2 (by omega)
  · obtain rfl | rfl := hb
    · exact range_ofNat (by omega) (by omega) (by omega)
    · exact hcontinuation v
  · obtain rfl | rfl | rfl := hb
    · exact range_ofNat (by omega) (by omega) (by omega)
    · exact hcontinuation _
    · exact hcontinuation v
  · obtain rfl | rfl | rfl | rfl := hb
    · exact range_ofNat (by omega) (by omega) (by omega)
    · exact hcontinuation _
    · exact hcontinuation _
    · exact hcontinuation v

theorem range_of_mem_encode {t : Text} (h : t.Visible) :
    ∀ b ∈ encode t, 0x20 ≤ b ∧ b ≠ 0x7F := by
  intro b hb
  obtain ⟨c, hc, hb⟩ := List.mem_flatMap.1 hb
  exact range_of_mem_encodeChar (h c hc) hb

end Utf8

end StackMachine
