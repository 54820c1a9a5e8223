-- SUMMARY: The integer slots as arithmetic: which integers fit, and what the groups of a slot are worth.
import Mathlib
import StackMachine.Slot

/-!
# Slots as arithmetic

The slots are written and read with shifts and masks of words. Here is what these
do to numbers: a folded word is a number's place in 0, -1, 1, -2, …, a group of
seven bits is a digit in base 128, and eight digits hold 56 bits. That the
integers from `-2 ^ 55` to `2 ^ 55 - 1` fit and no others is a fact about the
eight turns of the loop.
-/

namespace StackMachine.Slot

/-! ## Signs -/

/-- The place of an integer in 0, -1, 1, -2, … -/
def zigzag : Int → Nat
  | .ofNat n => 2 * n
  | .negSucc n => 2 * n + 1

def unzigzag (n : Nat) : Int :=
  if n % 2 = 0 then .ofNat (n / 2) else .negSucc (n / 2)

@[simp] theorem unzigzag_zigzag (v : Int) : unzigzag (zigzag v) = v := by
  cases v with
  | ofNat n => simp [zigzag, unzigzag]
  | negSucc n =>
    have hodd : (2 * n + 1) % 2 ≠ 0 := by omega
    have hhalf : (2 * n + 1) / 2 = n := by omega
    rw [zigzag, unzigzag, if_neg hodd, hhalf]

@[simp] theorem zigzag_unzigzag (n : Nat) : zigzag (unzigzag n) = n := by
  unfold unzigzag
  split <;> simp only [zigzag] <;> omega

theorem zigzag_of_nonneg {v : Int} (h : 0 ≤ v) : (zigzag v : Int) = 2 * v := by
  cases v with
  | ofNat n => rfl
  | negSucc n => omega

theorem zigzag_of_neg {v : Int} (h : v < 0) : (zigzag v : Int) = -2 * v - 1 := by
  cases v with
  | ofNat n => exact absurd h (Int.not_lt.2 (Int.natCast_nonneg n))
  | negSucc n =>
    simp only [zigzag]
    omega

/-- Shifted to its sign bit, a word has that bit everywhere. -/
theorem toBitVec_sign (v : Int64) :
    (v >>> 63).toBitVec = if v.toInt < 0 then BitVec.allOnes 64 else 0#64 := by
  have hshift : (v >>> 63).toBitVec.toInt = v.toInt / 2 ^ 63 := by
    change (v.toBitVec.sshiftRight 63).toInt = _
    rw [BitVec.toInt_sshiftRight, Int.shiftRight_eq_div_pow]
    rfl
  have hlow : -2 ^ 63 ≤ v.toInt := v.le_toInt
  have hhigh : v.toInt < 2 ^ 63 := v.toInt_lt
  apply BitVec.eq_of_toInt_eq
  rw [hshift]
  split
  · rw [BitVec.toInt_allOnes]
    omega
  · rw [BitVec.toInt_zero]
    omega

theorem toNat_zigzagWord (v : Int64) : (zigzagWord v).toNat = zigzag v.toInt := by
  have hbits : (zigzagWord v).toBitVec = v.toBitVec <<< 1 ^^^ (v >>> 63).toBitVec := rfl
  have hdouble : (v.toBitVec <<< 1).toNat = 2 * v.toBitVec.toNat % 2 ^ 64 := by
    rw [BitVec.toNat_shiftLeft, Nat.shiftLeft_eq, Nat.mul_comm]
  have hlt : v.toBitVec.toNat < 2 ^ 64 := v.toBitVec.isLt
  have hint : v.toInt = if 2 * v.toBitVec.toNat < 2 ^ 64 then (v.toBitVec.toNat : Int)
      else v.toBitVec.toNat - 2 ^ 64 := BitVec.toInt_eq_toNat_cond v.toBitVec
  rw [← UInt64.toNat_toBitVec, hbits, toBitVec_sign]
  by_cases hneg : v.toInt < 0
  · have hzigzag := zigzag_of_neg hneg
    rw [if_pos hneg, BitVec.xor_allOnes, BitVec.toNat_not, hdouble]
    split at hint <;> omega
  · have hzigzag := zigzag_of_nonneg (Int.not_lt.1 hneg)
    rw [if_neg hneg, BitVec.xor_zero, hdouble]
    split at hint <;> omega

theorem toInt_unzigzagWord (z : UInt64) : (unzigzagWord z).toInt = unzigzag z.toNat := by
  have hbits : (unzigzagWord z).toBitVec = z.toBitVec >>> 1 ^^^ -(z &&& 1).toBitVec := rfl
  have hlt : z.toNat < 2 ^ 64 := z.toNat_lt
  have hhalf : (z.toBitVec >>> 1).toNat = z.toNat / 2 := by
    rw [BitVec.toNat_ushiftRight, Nat.shiftRight_eq_div_pow, UInt64.toNat_toBitVec]
  have hlast : (z &&& 1).toBitVec = if z.toNat % 2 = 0 then 0#64 else 1#64 := by
    apply BitVec.eq_of_toNat_eq
    rw [UInt64.toNat_toBitVec, UInt64.toNat_and]
    change z.toNat &&& 1 = _
    rw [Nat.and_one_is_mod]
    split <;> simp only [BitVec.toNat_ofNat] <;> omega
  rw [unzigzag, ← Int64.toInt_toBitVec, hbits, hlast]
  split
  · rw [BitVec.neg_zero, BitVec.xor_zero, BitVec.toInt_eq_toNat_of_lt (by omega), hhalf]
    rfl
  · have hmask : -1#64 = BitVec.allOnes 64 := by decide
    rw [hmask, BitVec.xor_allOnes, BitVec.toInt_not, hhalf, Int.negSucc_eq, Int.bmod_def]
    omega

/-! ## Groups of seven bits -/

/-- The first `count` bytes of a number in base 128. A number that needs more
    bytes than that leaves none with a clear top bit. -/
def digits : (count n : Nat) → Bytes
  | 0, _ => []
  | count + 1, n =>
    if n < 128 then n.toUInt8 :: List.replicate count 0
    else (n % 128 + 128).toUInt8 :: digits count (n / 128)

/-- The number whose digits end at the first byte with a clear top bit. -/
def value? : Bytes → Option Nat
  | [] => none
  | b :: bytes =>
    if b < 128 then some b.toNat
    else (value? bytes).map fun n => b.toNat - 128 + 128 * n

theorem toNat_toUInt8 {n : Nat} (h : n < 256) : n.toUInt8.toNat = n :=
  UInt8.toNat_ofNat_of_lt' h

theorem toNat_shift (z : UInt64) : (z >>> 7).toNat = z.toNat / 128 := by
  rw [UInt64.toNat_shiftRight]
  exact Nat.shiftRight_eq_div_pow ..

/-- The byte of a group that is not the last one. -/
theorem toUInt8_or (z : UInt64) : z.toUInt8 ||| 0x80 = (z.toNat % 128 + 128).toUInt8 := by
  have hor : ∀ n : Fin 256, n.val ||| 128 = n.val % 128 + 128 := by decide +kernel
  have hbyte : z.toUInt8.toNat ||| 128 = z.toNat % 256 % 128 + 128 := hor z.toUInt8.toFin
  apply UInt8.toNat_inj.1
  rw [toNat_toUInt8 (by omega), UInt8.toNat_or]
  change z.toUInt8.toNat ||| 128 = _
  omega

theorem toNat_low (b : UInt8) : (b &&& 0x7F).toUInt64.toNat = b.toNat % 128 := by
  rw [UInt8.toNat_toUInt64, UInt8.toNat_and]
  exact Nat.and_two_pow_sub_one_eq_mod b.toNat 7

theorem and_eq_zero_iff {b : UInt8} : b &&& 0x80 = 0 ↔ b < 128 := by
  have hand : ∀ n : Fin 256, n.val &&& 128 = 0 ↔ n.val < 128 := by decide +kernel
  rw [← UInt8.toNat_inj, UInt8.toNat_and, UInt8.lt_iff_toNat_lt]
  exact hand b.toFin

/-- The next group stands above the ones that are in already. -/
theorem toNat_or_shiftLeft {index : Nat} {z low : UInt64} (hindex : index < width)
    (hz : z.toNat < 128 ^ index) (hlow : low.toNat < 128) :
    (z ||| low <<< (7 * index).toUInt64).toNat = z.toNat + 128 ^ index * low.toNat := by
  have hwidth : index < 8 := hindex
  have hpow : 128 ^ index = 2 ^ (7 * index) := (Nat.pow_mul 2 7 index).symm
  have hshift : (7 * index).toUInt64.toNat % 64 = 7 * index := by
    simp
    omega
  have hroom : 128 ^ index * low.toNat < 2 ^ 64 := by
    have hle : 128 ^ index ≤ 128 ^ 7 := Nat.pow_le_pow_right (by decide) (by omega)
    have hmul : 128 ^ index * low.toNat ≤ 128 ^ 7 * 127 := Nat.mul_le_mul hle (by omega)
    omega
  have hgroup : (low <<< (7 * index).toUInt64).toNat = 2 ^ (7 * index) * low.toNat := by
    rw [UInt64.toNat_shiftLeft, hshift, Nat.shiftLeft_eq, Nat.mul_comm]
    exact Nat.mod_eq_of_lt (by rwa [← hpow])
  rw [UInt64.toNat_or, hgroup, hpow, Nat.or_comm, ← Nat.two_pow_add_eq_or_of_lt (by rwa [← hpow]),
    Nat.add_comm]

/-! ## The loops -/

/-- The turns suffice for the number, and leave its digits. -/
theorem write_eq_some {room : Nat} {z : UInt64} (h : z.toNat < 128 ^ (room + 1)) :
    write (room + 1) z = some (digits (room + 1) z.toNat) := by
  induction room generalizing z with
  | zero =>
    have hlt : z.toNat < 128 := h
    have hlast : z < 0x80 := UInt64.lt_iff_toNat_lt.2 hlt
    rw [write, digits, if_pos hlast, if_pos hlt]
    rfl
  | succ room ih =>
    by_cases hlast : z < 0x80
    · have hlt : z.toNat < 128 := UInt64.lt_iff_toNat_lt.1 hlast
      rw [write, digits, if_pos hlast, if_pos hlt]
      rfl
    · have hge : ¬ z.toNat < 128 := fun hlt => hlast (UInt64.lt_iff_toNat_lt.2 hlt)
      have hdiv : (z >>> 7).toNat < 128 ^ (room + 1) := by
        rw [toNat_shift, Nat.div_lt_iff_lt_mul (by decide)]
        exact h
      rw [write, digits, if_neg hlast, if_neg hge, ih hdiv, toNat_shift, toUInt8_or,
        Option.map_some]

/-- The turns run out before the number does. -/
theorem write_eq_none {room : Nat} {z : UInt64} (h : 128 ^ room ≤ z.toNat) :
    write room z = none := by
  induction room generalizing z with
  | zero => rfl
  | succ room ih =>
    have hpow : 128 ^ room * 128 ≤ z.toNat := h
    have hpos : 0 < 128 ^ room := Nat.pow_pos (by decide)
    have hlast : ¬ z < 0x80 := fun hlt => by
      have hlt : z.toNat < 128 := UInt64.lt_iff_toNat_lt.1 hlt
      omega
    have hdiv : 128 ^ room ≤ (z >>> 7).toNat := by
      rw [toNat_shift]
      exact (Nat.le_div_iff_mul_le (by decide)).2 hpow
    rw [write, if_neg hlast, ih hdiv, Option.map_none]

theorem isSome_write_iff {room : Nat} {z : UInt64} :
    (write (room + 1) z).isSome ↔ z.toNat < 128 ^ (room + 1) := by
  constructor
  · intro h
    refine Nat.lt_of_not_le fun hge => ?_
    rw [write_eq_none hge] at h
    simp at h
  · intro h
    rw [write_eq_some h, Option.isSome_some]

/-- The groups of the bytes, above those that are in already. -/
theorem read_eq {index : Nat} {z : UInt64} {bytes : Bytes} (hz : z.toNat < 128 ^ index)
    (hlen : index + bytes.length ≤ width) :
    (read index z bytes).map UInt64.toNat =
      (value? bytes).map fun n => z.toNat + 128 ^ index * n := by
  induction bytes generalizing index z with
  | nil => rfl
  | cons b bytes ih =>
    rw [List.length_cons] at hlen
    have hlow : (b &&& 0x7F).toUInt64.toNat < 128 := by
      rw [toNat_low]
      omega
    have hor := toNat_or_shiftLeft (Nat.lt_of_lt_of_le (by omega) hlen) hz hlow
    rw [toNat_low] at hor
    simp only [read, value?, and_eq_zero_iff]
    by_cases hb : b < 128
    · have hlt : b.toNat < 128 := UInt8.lt_iff_toNat_lt.1 hb
      rw [if_pos hb, if_pos hb, Option.map_some, Option.map_some, hor, Nat.mod_eq_of_lt hlt]
    · have hge : ¬ b.toNat < 128 := fun hlt => hb (UInt8.lt_iff_toNat_lt.2 hlt)
      have hmod : b.toNat % 128 = b.toNat - 128 := by
        have hlt : b.toNat < 256 := b.toNat_lt
        omega
      have hnext : z.toNat + 128 ^ index * (b.toNat % 128) < 128 ^ (index + 1) := by
        rw [Nat.pow_succ]
        have hdigit : 128 ^ index * (b.toNat % 128) ≤ 128 ^ index * 127 :=
          Nat.mul_le_mul_left _ (by omega)
        omega
      rw [if_neg hb, if_neg hb, ih (by rwa [hor]) (by omega), hor, Option.map_map, hmod]
      refine Option.map_congr fun n _ => ?_
      simp only [Function.comp_apply, Nat.pow_succ, Nat.mul_add, Nat.mul_assoc, Nat.add_assoc]

/-- Bytes behind a last group are not read. -/
theorem read_append {index : Nat} {z n : UInt64} {bytes : Bytes} (tail : Bytes)
    (h : read index z bytes = some n) : read index z (bytes ++ tail) = some n := by
  induction bytes generalizing index z with
  | nil => simp [read] at h
  | cons b bytes ih =>
    rw [List.cons_append, read]
    rw [read] at h
    by_cases hb : b &&& 0x80 = 0
    · rw [if_pos hb] at h ⊢
      exact h
    · rw [if_neg hb] at h ⊢
      exact ih h

theorem isSome_read_iff {index : Nat} {z : UInt64} {bytes : Bytes} :
    (read index z bytes).isSome ↔ ∃ b ∈ bytes, b < 128 := by
  induction bytes generalizing index z with
  | nil => simp [read]
  | cons b bytes ih =>
    rw [read]
    by_cases hb : b < 128
    · rw [if_pos (and_eq_zero_iff.2 hb)]
      exact iff_of_true rfl ⟨b, List.mem_cons_self, hb⟩
    · rw [if_neg (mt and_eq_zero_iff.1 hb), ih]
      simp [hb]

/-! ## Digits read back -/

/-- The digits of a number are read back, whatever follows them. -/
theorem value?_digits {count n : Nat} (tail : Bytes) (h : n < 128 ^ (count + 1)) :
    value? (digits (count + 1) n ++ tail) = some n := by
  induction count generalizing n with
  | zero =>
    have hn : n < 128 := h
    have hb : n.toUInt8.toNat = n := toNat_toUInt8 (by omega)
    simp only [digits, if_pos hn, List.cons_append, value?, UInt8.lt_iff_toNat_lt, hb]
    exact if_pos hn
  | succ count ih =>
    by_cases hn : n < 128
    · have hb : n.toUInt8.toNat = n := toNat_toUInt8 (by omega)
      simp only [digits, if_pos hn, List.cons_append, value?, UInt8.lt_iff_toNat_lt, hb]
      exact if_pos hn
    · have hdiv : n / 128 < 128 ^ (count + 1) := by
        rw [Nat.div_lt_iff_lt_mul (by decide)]
        exact h
      have hb : (n % 128 + 128).toUInt8.toNat = n % 128 + 128 := toNat_toUInt8 (by omega)
      have hge : ¬ (n % 128 + 128).toUInt8 < 128 := by
        rw [UInt8.lt_iff_toNat_lt, hb]
        exact Nat.not_lt.2 (Nat.le_add_left 128 _)
      rw [digits, if_neg hn, List.cons_append, value?, if_neg hge, ih hdiv, hb]
      simp only [Option.map_some, Option.some.injEq]
      omega

theorem value?_lt {slot : Bytes} {n : Nat} (h : value? slot = some n) :
    n < 128 ^ slot.length := by
  induction slot generalizing n with
  | nil => simp [value?] at h
  | cons b slot ih =>
    have hb : b.toNat < 256 := b.toNat_lt
    rw [value?] at h
    split at h
    · rename_i hlast
      obtain rfl := Option.some.inj h
      have hlt : b.toNat < 128 := UInt8.lt_iff_toNat_lt.1 hlast
      exact Nat.lt_of_lt_of_le hlt (Nat.le_mul_of_pos_left 128 (Nat.pow_pos (by decide)))
    · obtain ⟨rest, hrest, rfl⟩ := Option.map_eq_some_iff.1 h
      have hlt : rest < 128 ^ slot.length := ih hrest
      rw [List.length_cons, Nat.pow_succ]
      omega

/-! ## Slots of words -/

/-- The first number that needs more than 56 bits. -/
def limit : Nat := 0x100000000000000

theorem zigzag_lt_limit_iff {v : Int} :
    zigzag v < limit ↔ -0x80000000000000 ≤ v ∧ v < 0x80000000000000 := by
  cases v <;> simp only [zigzag, limit, Int.ofNat_eq_natCast, Int.negSucc_eq] <;> omega

/-- The words with a slot are those of 56 bits. -/
theorem isSome_encodeWord?_iff {v : Int64} :
    (encodeWord? v).isSome ↔ -0x80000000000000 ≤ v.toInt ∧ v.toInt < 0x80000000000000 := by
  rw [← zigzag_lt_limit_iff, ← toNat_zigzagWord]
  exact isSome_write_iff

/-- The slot of a word holds the digits of its place in 0, -1, 1, -2, … -/
theorem encodeWord?_eq_some_iff {v : Int64} {slot : Bytes} :
    encodeWord? v = some slot ↔ zigzag v.toInt < limit ∧ digits width (zigzag v.toInt) = slot := by
  rw [← toNat_zigzagWord]
  constructor
  · intro h
    have hlt : (zigzagWord v).toNat < limit := isSome_write_iff.1 (Option.isSome_of_eq_some h)
    exact ⟨hlt, Option.some.inj ((write_eq_some hlt).symm.trans h)⟩
  · rintro ⟨hlt, rfl⟩
    exact write_eq_some hlt

/-- The word of a slot is the one whose place the slot's digits are. -/
theorem toInt_decodeWord? {slot : Bytes} (hlen : slot.length ≤ width) :
    (decodeWord? slot).map Int64.toInt = (value? slot).map unzigzag := by
  have hread : (read 0 0 slot).map UInt64.toNat = value? slot := by
    rw [read_eq (by decide) (by rwa [Nat.zero_add])]
    simp
  rw [decodeWord?, Option.map_map, ← hread, Option.map_map]
  exact Option.map_congr fun z _ => toInt_unzigzagWord z

/-- Bytes behind the last group are no part of the word. -/
theorem decodeWord?_append {slot : Bytes} {v : Int64} (tail : Bytes)
    (h : decodeWord? slot = some v) : decodeWord? (slot ++ tail) = some v := by
  obtain ⟨z, hz, rfl⟩ := Option.map_eq_some_iff.1 h
  rw [decodeWord?, read_append tail hz, Option.map_some]

theorem isSome_decodeWord?_iff {slot : Bytes} :
    (decodeWord? slot).isSome ↔ ∃ b ∈ slot, b < 128 := by
  rw [decodeWord?, Option.isSome_map, isSome_read_iff]

theorem decodeWord?_of_encodeWord? {v : Int64} {slot : Bytes} (h : encodeWord? v = some slot) :
    decodeWord? slot = some v := by
  obtain ⟨hlt, rfl⟩ := encodeWord?_eq_some_iff.1 h
  have hvalue : value? (digits width (zigzag v.toInt) ++ []) = some (zigzag v.toInt) :=
    value?_digits [] hlt
  rw [List.append_nil] at hvalue
  have hint := toInt_decodeWord? (Nat.le_of_eq (length_of_write h))
  rw [hvalue, Option.map_some, unzigzag_zigzag] at hint
  obtain ⟨w, hw, heq⟩ := Option.map_eq_some_iff.1 hint
  rw [hw, Int64.toInt_inj.1 heq]

/-- A slot of eight bytes has room for no other words than those of 56 bits. -/
theorem isSome_encodeWord?_of_decodeWord? {v : Int64} {slot : Bytes}
    (hlen : slot.length = width) (h : decodeWord? slot = some v) : (encodeWord? v).isSome := by
  have hint := toInt_decodeWord? (Nat.le_of_eq hlen)
  rw [h, Option.map_some] at hint
  obtain ⟨n, hn, heq⟩ := Option.map_eq_some_iff.1 hint.symm
  have hlt : n < 128 ^ slot.length := value?_lt hn
  rw [hlen] at hlt
  rw [isSome_encodeWord?_iff, ← zigzag_lt_limit_iff, ← heq, zigzag_unzigzag]
  exact hlt

/-! ## Slots of integers -/

@[simp] theorem encode?_toInt (v : Int64) : encode? v.toInt = encodeWord? v := by
  rw [encode?, Int64.ofInt_toInt, if_pos rfl]

/-- The integers that fit are those of 56 bits. -/
theorem fits_iff {v : Int} : Fits v ↔ -0x80000000000000 ≤ v ∧ v < 0x80000000000000 := by
  by_cases hword : (Int64.ofInt v).toInt = v
  · rw [← hword, Fits, encode?_toInt, isSome_encodeWord?_iff]
  · refine iff_of_false (fun h => ?_) fun ⟨hlow, hhigh⟩ => hword ?_
    · rw [Fits, encode?, if_neg hword] at h
      simp at h
    · exact Int64.toInt_ofInt_of_le (by omega) (by omega)

theorem decode?_encode {v : Int} (h : Fits v) : decode? (encode v) = some v := by
  have hslot := encode?_of_fits h
  rw [encode?] at hslot
  split at hslot
  · rename_i hword
    rw [decode?, decodeWord?_of_encodeWord? hslot, Option.map_some, hword]
  · simp at hslot

/-- A slot can hold no other integers than those that fit. -/
theorem fits_of_decode? {slot : Bytes} {v : Int} (hlen : slot.length = width)
    (h : decode? slot = some v) : Fits v := by
  obtain ⟨w, hw, rfl⟩ := Option.map_eq_some_iff.1 h
  rw [Fits, encode?_toInt]
  exact isSome_encodeWord?_of_decodeWord? hlen hw

end StackMachine.Slot
