-- SUMMARY: Decoding gives back every text that was encoded as UTF-8, whatever bytes follow it.
import Mathlib.Tactic.Common
import StackMachine.Text.Utf8

/-!
# Encoded texts

A character is encoded as a first byte, which says how many more there are, and
continuation bytes with six bits each. The first byte and the range of the second one
depend on the number that the first byte carries; there are few of these, so that all
are checked. Reading the bytes of a character gives the character, whatever follows,
and reading those of a text gives the text.
-/

namespace StackMachine.Utf8

/-! ## First bytes -/

theorem start_of_one : ∀ k : Fin 128,
    start (UInt8.ofNat k) = ([.char (Char.ofNat k)], none) := by
  decide +kernel

theorem start_of_two : ∀ k : Fin 32, 2 ≤ k.val →
    start (UInt8.ofNat (k + 192)) = ([], some ⟨1, k, 1, 0x80, 0xBF⟩) := by
  decide +kernel

theorem start_of_three : ∀ k : Fin 16,
    start (UInt8.ofNat (k + 224)) = ([], some ⟨1, k, 2, if k.val = 0 then 0xA0 else 0x80,
      if k.val = 13 then 0x9F else 0xBF⟩) := by
  decide +kernel

theorem start_of_four : ∀ k : Fin 5,
    start (UInt8.ofNat (k + 240)) = ([], some ⟨1, k, 3, if k.val = 0 then 0x90 else 0x80,
      if k.val = 4 then 0x8F else 0xBF⟩) := by
  decide +kernel

/-! ## Continuation bytes -/

/-- The byte that carries the lowest six bits of a number. -/
def continuation (n : Nat) : UInt8 :=
  UInt8.ofNat (n % 64 + 128)

theorem toNat_continuation (n : Nat) : (continuation n).toNat = n % 64 + 128 := by
  rw [continuation, UInt8.toNat_ofNat']
  omega

section Range

variable {read missing n : Nat} {low high : UInt8} (hlow : low.toNat ≤ n % 64 + 128)
  (hhigh : n % 64 + 128 ≤ high.toNat) (bytes : Bytes)
include hlow hhigh

/-- To a number without its lowest six bits the byte adds these. -/
theorem Partial.next_continuation :
    (Partial.mk read (n / 64) missing low high).next (continuation n) =
      if missing = 1 then ([.char (Char.ofNat n)], none)
      else ([], some ⟨read + 1, n, missing - 1, 0x80, 0xBF⟩) := by
  have hrange : low ≤ continuation n ∧ continuation n ≤ high := by
    rw [UInt8.le_iff_toNat_le, UInt8.le_iff_toNat_le, toNat_continuation]
    exact ⟨hlow, hhigh⟩
  have hvalue : n / 64 * 64 + (n % 64 + 128) % 64 = n := by omega
  rw [next, if_pos hrange, toNat_continuation, hvalue]

theorem scanFrom_last :
    scanFrom (some ⟨read, n / 64, 1, low, high⟩) (continuation n :: bytes) =
      .char (Char.ofNat n) :: scan bytes := by
  rw [scanFrom, Partial.next_continuation hlow hhigh, if_pos rfl]
  rfl

theorem scanFrom_next :
    scanFrom (some ⟨read, n / 64, missing + 2, low, high⟩) (continuation n :: bytes) =
      scanFrom (some ⟨read + 1, n, missing + 1, 0x80, 0xBF⟩) bytes := by
  rw [scanFrom, Partial.next_continuation hlow hhigh, if_neg (by omega)]
  rfl

end Range

/-- Any six bits may stand in a byte behind the second one. -/
theorem continuation_range (n : Nat) :
    (0x80 : UInt8).toNat ≤ n % 64 + 128 ∧ n % 64 + 128 ≤ (0xBF : UInt8).toNat := by
  change 128 ≤ n % 64 + 128 ∧ n % 64 + 128 ≤ 191
  omega

/-! ## Characters -/

/-- The bytes of a character, by the size of its number. -/
theorem encodeChar_eq (c : Char) :
    String.utf8EncodeChar c =
      let v := c.toNat
      if v ≤ 127 then [UInt8.ofNat v]
      else if v ≤ 2047 then [UInt8.ofNat (v / 64 + 192), continuation v]
      else if v ≤ 65535 then
        [UInt8.ofNat (v / 64 / 64 + 224), continuation (v / 64), continuation v]
      else
        [UInt8.ofNat (v / 64 / 64 / 64 + 240), continuation (v / 64 / 64),
          continuation (v / 64), continuation v] := by
  have hvalid : c.toNat < 0xD800 ∨ 0xDFFF < c.toNat ∧ c.toNat < 0x110000 := c.valid
  have hval : c.val.toNat = c.toNat := rfl
  unfold String.utf8EncodeChar continuation
  simp only [hval, Nat.div_div_eq_div_mul, Nat.reduceMul]
  split_ifs with h1 h2 h3
  · rfl
  · rw [Nat.mod_eq_of_lt (by omega : c.toNat / 64 < 32)]
  · rw [Nat.mod_eq_of_lt (by omega : c.toNat / 4096 < 16)]
  · rw [Nat.mod_eq_of_lt (by omega : c.toNat / 262144 < 8)]

theorem scan_of_start {b : UInt8} {p : Partial} (h : start b = ([], some p)) (bytes : Bytes) :
    scan (b :: bytes) = scanFrom (some p) bytes := by
  rw [scan, scanFrom, h]
  rfl

/-- The bytes of a character are read as the character. -/
theorem scan_encodeChar_append (c : Char) (bytes : Bytes) :
    scan (String.utf8EncodeChar c ++ bytes) = .char c :: scan bytes := by
  have hvalid : c.toNat < 0xD800 ∨ 0xDFFF < c.toNat ∧ c.toNat < 0x110000 := c.valid
  have hchar : Char.ofNat c.toNat = c := Char.ofNat_toNat c
  rw [encodeChar_eq]
  generalize c.toNat = v at hvalid hchar
  rw [← hchar]
  have hrange := continuation_range
  dsimp only
  split_ifs with h1 h2 h3
  · have hstart := start_of_one ⟨v, by omega⟩
    rw [List.singleton_append, scan, scanFrom, hstart]
    rfl
  · have hstart := start_of_two ⟨v / 64, by omega⟩ (by simp only; omega)
    simp only [List.cons_append, List.nil_append]
    rw [scan_of_start hstart, scanFrom_last (hrange v).1 (hrange v).2]
  -- The second byte is restricted where the number would be too small or a surrogate.
  · have hstart := start_of_three ⟨v / 64 / 64, by omega⟩
    simp only [List.cons_append, List.nil_append]
    rw [scan_of_start hstart, scanFrom_next ?_ ?_, scanFrom_last (hrange v).1 (hrange v).2]
    · split_ifs with hfirst
      · change v / 64 / 64 = 0 at hfirst
        change 160 ≤ _
        omega
      · exact (hrange _).1
    · split_ifs with hfirst
      · change v / 64 / 64 = 13 at hfirst
        change _ ≤ 159
        omega
      · exact (hrange _).2
  -- Here it is where the number would be too small or too large.
  · have hstart := start_of_four ⟨v / 64 / 64 / 64, by omega⟩
    simp only [List.cons_append, List.nil_append]
    rw [scan_of_start hstart, scanFrom_next ?_ ?_, scanFrom_next (hrange _).1 (hrange _).2,
      scanFrom_last (hrange v).1 (hrange v).2]
    · split_ifs with hfirst
      · change v / 64 / 64 / 64 = 0 at hfirst
        change 144 ≤ _
        omega
      · exact (hrange _).1
    · split_ifs with hfirst
      · change v / 64 / 64 / 64 = 4 at hfirst
        change _ ≤ 143
        omega
      · exact (hrange _).2

/-! ## Texts -/

theorem encode_append (s t : Text) : encode (s ++ t) = encode s ++ encode t :=
  List.flatMap_append

/-- The bytes of a text are read as its characters, whatever follows. -/
theorem scan_encode_append (t : Text) (bytes : Bytes) :
    scan (encode t ++ bytes) = t.map .char ++ scan bytes := by
  induction t with
  | nil => rfl
  | cons c t ih =>
    have hcons : encode (c :: t) = String.utf8EncodeChar c ++ encode t := List.flatMap_cons
    rw [hcons, List.append_assoc, scan_encodeChar_append, ih]
    rfl

theorem scan_encode (t : Text) : scan (encode t) = t.map .char := by
  have h := scan_encode_append t []
  rwa [List.append_nil, scan, scan, scanFrom, List.append_nil] at h

theorem join?_chars (t : Text) (index : Nat) : join? index (t.map .char) = .ok t := by
  induction t generalizing index with
  | nil => rfl
  | cons c t ih => rw [List.map_cons, join?, ih, Except.map]

/-- A text is what strict decoding makes of its bytes. -/
theorem decode?_encode (t : Text) : decode? (encode t) = .ok t := by
  rw [decode?, scan_encode, join?_chars]

end StackMachine.Utf8
