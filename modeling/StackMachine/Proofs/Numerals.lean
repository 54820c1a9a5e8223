-- SUMMARY: Numerals: what digits a number is written with, in any base up to sixteen.
import Mathlib.Data.Nat.Digits.Defs
import StackMachine.Text.Decimal
import StackMachine.Text.Hex

/-!
# Numerals

A numeral is said by its digits, by their value and by how many of them there are,
without a word on how it is made. There is one numeral for each number, so this says
all about the decimal and hexadecimal numbers that the machine and its tools show.
-/

namespace StackMachine

/-- The value of a digit. Letters are digits in lower case only. -/
def digitValue (c : Char) : Nat :=
  "0123456789abcdef".toList.idxOf c

/-- The text is the number in a base, with `width` digits or more: its characters are
    digits, the last one counts the ones, and if there are more than `width` of them
    the first one is not zero. -/
structure Numeral (base width n : Nat) (t : Text) : Prop where
  digits : ∀ c ∈ t, digitValue c < base
  value : Nat.ofDigits base (t.reverse.map digitValue) = n
  le_length : width ≤ t.length
  tight : t.length = width ∨ t.head? ≠ some '0'

variable {base width n : Nat} {s t : Text}

/-! ## Digits -/

theorem digitValue_digitChar {k : Nat} (h : k < 16) : digitValue k.digitChar = k := by
  have hall : ∀ k : Fin 16, digitValue (Nat.digitChar k) = k := by decide
  exact hall ⟨k, h⟩

theorem digitChar_digitValue {c : Char} (h : digitValue c < 16) :
    Nat.digitChar (digitValue c) = c := by
  have hall : "0123456789abcdef".toList.all (fun c => Nat.digitChar (digitValue c) = c) := by
    decide
  exact of_decide_eq_true (List.all_eq_true.1 hall c (List.idxOf_lt_length_iff.1 h))

theorem exists_digitChar_of_mem_toDigits {c : Char} (hbase : 1 < base)
    (h : c ∈ Nat.toDigits base n) : ∃ k < base, c = Nat.digitChar k := by
  induction n using Nat.strongRecOn with
  | ind n ih =>
    rw [Nat.toDigits_eq_if hbase] at h
    split at h
    · rename_i hlt
      exact ⟨n, hlt, List.mem_singleton.1 h⟩
    · rename_i hge
      obtain hrest | hdigit := List.mem_append.1 h
      · exact ih (n / base) (Nat.div_lt_self (by omega) hbase) hrest
      · exact ⟨n % base, Nat.mod_lt n (by omega), List.mem_singleton.1 hdigit⟩

/-- The value of the digits of a number is that number. -/
theorem ofDigits_toDigits (hbase : 1 < base) (hle : base ≤ 16) (n : Nat) :
    Nat.ofDigits base ((Nat.toDigits base n).reverse.map digitValue) = n := by
  induction n using Nat.strongRecOn with
  | ind n ih =>
    rw [Nat.toDigits_eq_if hbase]
    split
    · rename_i hlt
      simp [digitValue_digitChar (Nat.lt_of_lt_of_le hlt hle)]
    · have hlast : n % base < 16 := Nat.lt_of_lt_of_le (Nat.mod_lt n (by omega)) hle
      rw [List.reverse_append, List.reverse_singleton, List.singleton_append, List.map_cons,
        Nat.ofDigits_cons, ih (n / base) (Nat.div_lt_self (by omega) hbase),
        digitValue_digitChar hlast]
      exact Nat.mod_add_div n base

/-- Only zero begins with the digit zero. -/
theorem head?_toDigits (hbase : 1 < base) (hle : base ≤ 16) (hn : n ≠ 0) :
    (Nat.toDigits base n).head? ≠ some '0' := by
  induction n using Nat.strongRecOn with
  | ind n ih =>
    rw [Nat.toDigits_eq_if hbase]
    split
    · rename_i hlt
      intro hzero
      have hdigit : Nat.digitChar n = '0' := Option.some.inj hzero
      have hvalue := digitValue_digitChar (Nat.lt_of_lt_of_le hlt hle)
      rw [hdigit] at hvalue
      exact hn hvalue.symm
    · rename_i hge
      have hrest : n / base ≠ 0 := (Nat.div_pos (Nat.le_of_not_lt hge) (by omega)).ne'
      obtain ⟨c, rest, hfront⟩ := List.exists_cons_of_ne_nil (@Nat.toDigits_ne_nil (n / base) base)
      have hfirst := ih (n / base) (Nat.div_lt_self (by omega) hbase) hrest
      rw [hfront] at hfirst ⊢
      exact hfirst

/-! ## The numeral of a number -/

/-- Zeros in front fill a number up to its width. -/
theorem numeral_leftpad (hbase : 1 < base) (hle : base ≤ 16) (hwidth : 1 ≤ width) (n : Nat) :
    Numeral base width n ((Nat.toDigits base n).leftpad width '0') where
  digits c hc := by
    rw [List.leftpad, List.mem_append] at hc
    obtain hzero | hdigit := hc
    · rw [(List.mem_replicate.1 hzero).2]
      exact Nat.lt_of_succ_lt hbase
    · obtain ⟨k, hk, rfl⟩ := exists_digitChar_of_mem_toDigits hbase hdigit
      rwa [digitValue_digitChar (Nat.lt_of_lt_of_le hk hle)]
  value := by
    have hzero : digitValue '0' = 0 := rfl
    rw [List.leftpad, List.reverse_append, List.reverse_replicate, List.map_append,
      List.map_replicate, hzero, Nat.ofDigits_append_replicate_zero]
    exact ofDigits_toDigits hbase hle n
  le_length := by
    rw [List.length_leftpad]
    exact Nat.le_max_left ..
  tight := by
    by_cases hlen : (Nat.toDigits base n).length ≤ width
    · left
      rw [List.length_leftpad, Nat.max_eq_left hlen]
    · right
      have hn : n ≠ 0 := by
        rintro rfl
        rw [Nat.toDigits_zero] at hlen
        exact hlen hwidth
      rw [List.leftpad, Nat.sub_eq_zero_of_le (Nat.le_of_not_le hlen)]
      exact head?_toDigits hbase hle hn

theorem numeral_toDigits (hbase : 1 < base) (hle : base ≤ 16) (n : Nat) :
    Numeral base 1 n (Nat.toDigits base n) := by
  have hpad := numeral_leftpad hbase hle (Nat.le_refl 1) n
  rwa [List.leftpad, Nat.sub_eq_zero_of_le Nat.length_toDigits_pos] at hpad

/-- A numeral has no more digits than any other one of its number. -/
theorem Numeral.length_le (hbase : 1 < base) (hle : base ≤ 16) (hs : Numeral base width n s)
    (ht : Numeral base width n t) : t.length ≤ s.length := by
  by_contra hlt
  have hlong : width < t.length := Nat.lt_of_le_of_lt hs.le_length (Nat.lt_of_not_le hlt)
  cases t with
  | nil => exact absurd hlong (Nat.not_lt_zero width)
  | cons c t =>
    have hpos : 1 ≤ digitValue c := by
      have hfirst : c ≠ '0' := fun hc => ht.tight.resolve_left hlong.ne' (congrArg some hc)
      have hc := digitChar_digitValue (Nat.lt_of_lt_of_le (ht.digits c List.mem_cons_self) hle)
      exact Nat.pos_of_ne_zero fun hzero => hfirst (by rw [← hc, hzero]; rfl)
    have hsmall : n < base ^ s.length := by
      have hdigits : ∀ d ∈ s.reverse.map digitValue, d < base := by simpa using hs.digits
      have hpow := Nat.ofDigits_lt_base_pow_length hbase hdigits
      rwa [hs.value, List.length_map, List.length_reverse] at hpow
    have hlarge : base ^ t.length ≤ n := by
      have hvalue := ht.value
      rw [List.map_reverse, List.map_cons, Nat.ofDigits_reverse_cons, List.length_map] at hvalue
      have hfirst : base ^ t.length ≤ base ^ t.length * digitValue c := Nat.le_mul_of_pos_right _ hpos
      omega
    have hpow : base ^ s.length ≤ base ^ t.length :=
      Nat.pow_le_pow_right (by omega) (Nat.le_of_lt_succ (Nat.lt_of_not_le hlt))
    omega

/-- There is one numeral for a number. -/
theorem Numeral.unique (hbase : 1 < base) (hle : base ≤ 16) (hs : Numeral base width n s)
    (ht : Numeral base width n t) : s = t := by
  have hlen : s.length = t.length :=
    Nat.le_antisymm (ht.length_le hbase hle hs) (hs.length_le hbase hle ht)
  have hdigits : s.reverse.map digitValue = t.reverse.map digitValue :=
    Nat.ofDigits_inj_of_len_eq hbase (by simpa using hlen) (by simpa using hs.digits)
      (by simpa using ht.digits) (hs.value.trans ht.value.symm)
  have hback {u : Text} (hu : Numeral base width n u) :
      (u.map digitValue).map Nat.digitChar = u := by
    rw [List.map_map]
    refine (List.map_congr_left fun c hc => ?_).trans (List.map_id u)
    exact digitChar_digitValue (Nat.lt_of_lt_of_le (hu.digits c hc) hle)
  rw [List.map_reverse, List.map_reverse, List.reverse_inj] at hdigits
  rw [← hback hs, hdigits, hback ht]

/-! ## Decimal numbers -/

namespace Decimal

/-- The text is the integer: the numeral of its absolute value, and a minus sign in
    front if it is negative. -/
def Spells (v : Int) (t : Text) : Prop :=
  ∃ digits, Numeral 10 1 v.natAbs digits ∧ t = if v < 0 then '-' :: digits else digits

theorem numeral_ofNat (n : Nat) : Numeral 10 1 n (ofNat n) :=
  numeral_toDigits (by decide) (by decide) n

theorem numeral_padded (n : Nat) : Numeral 10 4 n (padded n) :=
  numeral_leftpad (by decide) (by decide) (by decide) n

theorem spells_ofInt (v : Int) : Spells v (ofInt v) := by
  cases v with
  | ofNat n => exact ⟨ofNat n, numeral_ofNat n, rfl⟩
  | negSucc n => exact ⟨ofNat (n + 1), numeral_ofNat (n + 1), (if_pos (Int.negSucc_lt_zero n)).symm⟩

end Decimal

/-! ## Hexadecimal numbers -/

namespace Hex

/-- The text is the word, or its two's complement if it is negative: `0x` and the
    numeral, of four digits or more. -/
def Spells (w : Int64) (t : Text) : Prop :=
  ∃ digits, Numeral 16 4 w.toUInt64.toNat digits ∧ t = '0' :: 'x' :: digits

theorem numeral_digits (hwidth : 1 ≤ width) (n : Nat) : Numeral 16 width n (digits width n) :=
  numeral_leftpad (by decide) (by decide) hwidth n

theorem spells_word (w : Int64) : Spells w (word w) :=
  ⟨digits 4 w.toUInt64.toNat, numeral_digits (by decide) _, rfl⟩

end Hex

end StackMachine
