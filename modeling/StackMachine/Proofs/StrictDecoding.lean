-- SUMMARY: Strict decoding accepts the bytes of texts and nothing else.
import StackMachine.Proofs.TextEncoding

/-!
# Strict decoding

Bytes in which nothing is malformed are the bytes of a text. Each character of them
begins with a byte that says how many continuation bytes there are, and these are in
range, so that together they are the bytes of a number of that size.
-/

namespace StackMachine.Utf8

variable {bytes : Bytes} {t : Text}

/-! ## Bytes -/

/-- These bytes begin no character. -/
theorem start_of_refused : ∀ k : Fin 256, 128 ≤ k.val ∧ k.val < 194 ∨ 245 ≤ k.val →
    start (UInt8.ofNat k) = ([.malformed 1], none) := by
  decide +kernel

/-- If nothing is malformed, a byte of the range follows what has begun. -/
theorem exists_continuation {read value missing : Nat} {low high : UInt8} (hlow : 0x80 ≤ low)
    (hhigh : high ≤ 0xBF)
    (h : scanFrom (some ⟨read, value, missing, low, high⟩) bytes = t.map .char) :
    ∃ n rest, value = n / 64 ∧ low.toNat ≤ n % 64 + 128 ∧ n % 64 + 128 ≤ high.toNat ∧
      bytes = continuation n :: rest := by
  cases bytes with
  | nil => cases t <;> cases h
  | cons b bytes =>
    by_cases hb : low ≤ b ∧ b ≤ high
    · have hrange := hb
      rw [UInt8.le_iff_toNat_le] at hlow hhigh
      rw [UInt8.le_iff_toNat_le, UInt8.le_iff_toNat_le] at hrange
      change 128 ≤ low.toNat at hlow
      change high.toNat ≤ 191 at hhigh
      have hbits : (value * 64 + b.toNat % 64) % 64 + 128 = b.toNat := by omega
      refine ⟨value * 64 + b.toNat % 64, bytes, by omega, by omega, by omega, ?_⟩
      rw [continuation, hbits, UInt8.ofNat_toNat]
    · rw [scanFrom, Partial.next, if_neg hb] at h
      cases t <;> cases h

theorem toNat_char_ofNat {n : Nat} (h : n.isValidChar) : (Char.ofNat n).toNat = n := by
  rw [Char.ofNat, dif_pos h]
  rfl

/-! ## Characters -/

/-- The bytes begin with those of the text's first character, and the others are scanned as
    its other characters. -/
def Splits (bytes : Bytes) (t : Text) : Prop :=
  ∃ c t' rest, t = c :: t' ∧ bytes = String.utf8EncodeChar c ++ rest ∧ scan rest = t'.map .char

theorem splits_of_char {n : Nat} {rest : Bytes}
    (h : .char (Char.ofNat n) :: scan rest = t.map .char)
    (hbytes : bytes = String.utf8EncodeChar (Char.ofNat n) ++ rest) : Splits bytes t := by
  cases t with
  | nil => cases h
  | cons c t =>
    obtain ⟨hc, hrest⟩ := List.cons.inj h
    exact ⟨c, t, rest, rfl, by rw [hbytes, Piece.char.inj hc], hrest⟩

/-- A byte behind the second one may carry any six bits. -/
theorem full_range : (0x80 : UInt8) ≤ 0x80 ∧ (0xBF : UInt8) ≤ 0xBF := by
  decide

theorem splits_of_one {v : Nat} (hv : v < 128)
    (h : scan (UInt8.ofNat v :: bytes) = t.map .char) : Splits (UInt8.ofNat v :: bytes) t := by
  rw [scan, scanFrom, start_of_one ⟨v, hv⟩] at h
  refine splits_of_char h ?_
  rw [encodeChar_eq, toNat_char_ofNat (.inl (by omega)), if_pos (by omega)]
  rfl

theorem splits_of_two {k : Nat} (hlow : 2 ≤ k) (hhigh : k < 32)
    (h : scan (UInt8.ofNat (k + 192) :: bytes) = t.map .char) :
    Splits (UInt8.ofNat (k + 192) :: bytes) t := by
  rw [scan_of_start (start_of_two ⟨k, hhigh⟩ hlow)] at h
  obtain ⟨n, rest, rfl, hn, hn', rfl⟩ := exists_continuation full_range.1 full_range.2 h
  rw [scanFrom_last hn hn'] at h
  refine splits_of_char h ?_
  rw [encodeChar_eq, toNat_char_ofNat (.inl (by omega)), if_neg (by omega), if_pos (by omega)]
  rfl

/-- The second byte keeps out small numbers and surrogates. -/
theorem splits_of_three {k : Nat} (hk : k < 16)
    (h : scan (UInt8.ofNat (k + 224) :: bytes) = t.map .char) :
    Splits (UInt8.ofNat (k + 224) :: bytes) t := by
  rw [scan_of_start (start_of_three ⟨k, hk⟩)] at h
  obtain ⟨n₁, rest₁, rfl, hlow, hhigh, rfl⟩ :=
    exists_continuation (by split <;> decide) (by split <;> decide) h
  rw [scanFrom_next hlow hhigh] at h
  obtain ⟨n, rest, rfl, hn, hn', rfl⟩ := exists_continuation full_range.1 full_range.2 h
  rw [scanFrom_last hn hn'] at h
  have hsmall (hfirst : n / 64 / 64 = 0) : 160 ≤ n / 64 % 64 + 128 := by
    rwa [if_pos hfirst] at hlow
  have hsurrogate (hfirst : n / 64 / 64 = 13) : n / 64 % 64 + 128 ≤ 159 := by
    rwa [if_pos hfirst] at hhigh
  have hvalid : n.isValidChar := by
    unfold Nat.isValidChar
    omega
  refine splits_of_char h ?_
  rw [encodeChar_eq, toNat_char_ofNat hvalid, if_neg (by omega), if_neg (by omega),
    if_pos (by omega)]
  rfl

/-- The second byte keeps out small numbers and large ones. -/
theorem splits_of_four {k : Nat} (hk : k < 5)
    (h : scan (UInt8.ofNat (k + 240) :: bytes) = t.map .char) :
    Splits (UInt8.ofNat (k + 240) :: bytes) t := by
  rw [scan_of_start (start_of_four ⟨k, hk⟩)] at h
  obtain ⟨n₁, rest₁, rfl, hlow, hhigh, rfl⟩ :=
    exists_continuation (by split <;> decide) (by split <;> decide) h
  rw [scanFrom_next hlow hhigh] at h
  obtain ⟨n₂, rest₂, rfl, hn₂, hn₂', rfl⟩ := exists_continuation full_range.1 full_range.2 h
  rw [scanFrom_next hn₂ hn₂'] at h
  obtain ⟨n, rest, rfl, hn, hn', rfl⟩ := exists_continuation full_range.1 full_range.2 h
  rw [scanFrom_last hn hn'] at h
  have hsmall (hfirst : n / 64 / 64 / 64 = 0) : 144 ≤ n / 64 / 64 % 64 + 128 := by
    rwa [if_pos hfirst] at hlow
  have hlarge (hfirst : n / 64 / 64 / 64 = 4) : n / 64 / 64 % 64 + 128 ≤ 143 := by
    rwa [if_pos hfirst] at hhigh
  refine splits_of_char h ?_
  rw [encodeChar_eq, toNat_char_ofNat (.inr (by omega)), if_neg (by omega), if_neg (by omega),
    if_neg (by omega)]
  rfl

/-- The case is the number of bytes that the first one announces. -/
theorem splits_of_scan {b : UInt8} (h : scan (b :: bytes) = t.map .char) :
    Splits (b :: bytes) t := by
  obtain ⟨v, hv, rfl⟩ : ∃ v, v < 256 ∧ b = UInt8.ofNat v :=
    ⟨b.toNat, b.toNat_lt, UInt8.ofNat_toNat.symm⟩
  obtain hone | htwo | hthree | hfour | hrefused : v < 128 ∨ (194 ≤ v ∧ v < 224) ∨
      (224 ≤ v ∧ v < 240) ∨ (240 ≤ v ∧ v < 245) ∨ (128 ≤ v ∧ v < 194 ∨ 245 ≤ v) := by omega
  · exact splits_of_one hone h
  · obtain ⟨k, rfl⟩ : ∃ k, v = k + 192 := ⟨v - 192, by omega⟩
    exact splits_of_two (by omega) (by omega) h
  · obtain ⟨k, rfl⟩ : ∃ k, v = k + 224 := ⟨v - 224, by omega⟩
    exact splits_of_three (by omega) h
  · obtain ⟨k, rfl⟩ : ∃ k, v = k + 240 := ⟨v - 240, by omega⟩
    exact splits_of_four (by omega) h
  · rw [scan, scanFrom, start_of_refused ⟨v, hv⟩ hrefused] at h
    cases t <;> cases h

/-! ## Texts -/

theorem eq_encode_of_scan (h : scan bytes = t.map .char) : bytes = encode t := by
  induction t generalizing bytes with
  | nil =>
    cases bytes with
    | nil => rfl
    | cons b bytes =>
      obtain ⟨_, _, _, hnil, -⟩ := splits_of_scan h
      cases hnil
  | cons c t ih =>
    cases bytes with
    | nil => cases h
    | cons b bytes =>
      obtain ⟨_, _, rest, heq, hbytes, hrest⟩ := splits_of_scan h
      cases heq
      rw [hbytes, ih hrest]
      rfl

theorem eq_map_of_join? {pieces : List Piece} {index : Nat} (h : join? index pieces = .ok t) :
    pieces = t.map .char := by
  induction pieces generalizing index t with
  | nil =>
    cases h
    rfl
  | cons piece pieces ih =>
    cases piece with
    | char c =>
      rw [join?] at h
      cases hjoin : join? (index + c.utf8Size) pieces with
      | error e =>
        rw [hjoin] at h
        cases h
      | ok t' =>
        rw [hjoin] at h
        cases h
        rw [ih hjoin, List.map_cons]
    | malformed | truncated => cases h

/-- Strict decoding accepts the bytes of texts, and nothing else. -/
theorem decode?_eq_ok_iff : decode? bytes = .ok t ↔ bytes = encode t := by
  constructor
  · exact fun h => eq_encode_of_scan (eq_map_of_join? h)
  · rintro rfl
    exact decode?_encode t

/-- Lossy decoding loses nothing of what strict decoding accepts. -/
theorem decodeLossy_of_decode? (h : decode? bytes = .ok t) : decodeLossy bytes = t := by
  rw [decode?_eq_ok_iff.1 h, decodeLossy, scan_encode, List.map_map]
  exact List.map_id t

end StackMachine.Utf8
