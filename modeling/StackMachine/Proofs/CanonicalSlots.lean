-- SUMMARY: The integer slots exactly: which are read, as what, and which of them are written.
import StackMachine.Proofs.Slots

/-!
# Canonical slots

A slot is read up to its first byte below 128 and written with zeros behind that
byte. So a slot says more than its integer: the bytes behind the last digit are
free, and digits that are zero may be added at the end. One slot of each integer
has neither, and it is the one that is written.
-/

namespace StackMachine.Slot

/-! ## The last digit of a slot -/

/-- The digits of `slot` are the bytes of `front`, which announce another one, and
    `last`, which does not. The bytes of `rest` lie behind them. -/
structure Ends (slot front : Bytes) (last : UInt8) (rest : Bytes) : Prop where
  eq : slot = front ++ last :: rest
  going : ∀ b ∈ front, ¬ b < 128
  last : last < 128

/-- The number with the digits of `front` and then `last`, least digit first. -/
def number (front : Bytes) (last : UInt8) : Nat :=
  front.foldr (fun b n => b.toNat - 128 + 128 * n) last.toNat

variable {slot front rest : Bytes} {last : UInt8} {v : Int64}

theorem Ends.value?_eq (h : Ends slot front last rest) : value? slot = some (number front last) := by
  obtain ⟨rfl, hgoing, hlast⟩ := h
  induction front with
  | nil => exact if_pos hlast
  | cons b front ih =>
    have hb : ¬ b < 128 := hgoing b List.mem_cons_self
    rw [List.cons_append, value?, if_neg hb, ih fun c hc => hgoing c (List.mem_cons_of_mem b hc)]
    rfl

/-- The place of a slot's word in 0, -1, 1, -2, … has the slot's digits. -/
theorem Ends.zigzag_eq (hlen : slot.length = width) (h : Ends slot front last rest)
    (hv : decodeWord? slot = some v) : zigzag v.toInt = number front last := by
  have hint := toInt_decodeWord? (Nat.le_of_eq hlen)
  rw [hv, h.value?_eq] at hint
  rw [Option.some.inj hint, zigzag_unzigzag]

/-- What lies behind the last digit is not part of the word. -/
theorem Ends.behind (h : Ends slot front last rest) (hv : decodeWord? slot = some v)
    (tail : Bytes) : decodeWord? (front ++ last :: tail) = some v := by
  have hlast : ∃ b ∈ front ++ [last], b < 128 := ⟨last, by simp, h.last⟩
  obtain ⟨w, hw⟩ := Option.isSome_iff_exists.1 (isSome_decodeWord?_iff.2 hlast)
  have hread := decodeWord?_append rest hw
  rw [List.append_assoc, List.singleton_append, ← h.eq, hv] at hread
  obtain rfl := Option.some.inj hread
  simpa using decodeWord?_append tail hw

/-- There is one way to cut a slot behind its last digit. -/
theorem Ends.unique {front' rest' : Bytes} {last' : UInt8} (h : Ends slot front last rest)
    (h' : Ends slot front' last' rest') : front = front' ∧ last = last' ∧ rest = rest' := by
  obtain ⟨rfl, hgoing, hlast⟩ := h
  obtain ⟨heq, hgoing', hlast'⟩ := h'
  induction front generalizing front' with
  | nil =>
    cases front' with
    | nil =>
      obtain ⟨rfl, rfl⟩ := List.cons.inj heq
      exact ⟨rfl, rfl, rfl⟩
    | cons c front' =>
      obtain ⟨rfl, -⟩ := List.cons.inj heq
      exact absurd hlast (hgoing' _ List.mem_cons_self)
  | cons b front ih =>
    cases front' with
    | nil =>
      obtain ⟨rfl, -⟩ := List.cons.inj heq
      exact absurd hlast' (hgoing _ List.mem_cons_self)
    | cons c front' =>
      obtain ⟨rfl, htail⟩ := List.cons.inj heq
      obtain ⟨rfl, hrest⟩ := ih (fun d hd => hgoing d (List.mem_cons_of_mem _ hd)) htail
        fun d hd => hgoing' d (List.mem_cons_of_mem _ hd)
      exact ⟨rfl, hrest⟩

theorem exists_ends (h : ∃ b ∈ slot, b < 128) : ∃ front last rest, Ends slot front last rest := by
  induction slot with
  | nil => simp at h
  | cons b slot ih =>
    by_cases hb : b < 128
    · exact ⟨[], b, slot, rfl, by simp, hb⟩
    · obtain ⟨front, last, rest, rfl, hgoing, hlast⟩ := ih (by simpa [hb] using h)
      refine ⟨b :: front, last, rest, rfl, ?_, hlast⟩
      rintro c (- | ⟨-, hc⟩)
      · exact hb
      · exact hgoing c hc

/-! ## The slot that is written -/

/-- The slot holds its integer with no digit that could be left out, and zeros
    behind it. -/
def Canonical (slot : Bytes) : Prop :=
  ∃ front last rest, Ends slot front last rest ∧
    (∀ b ∈ rest, b = 0) ∧ (last ≠ 0 ∨ front = [])

/-- A number is not zero if its last digit is not. -/
theorem number_ne_zero (hlast : last ≠ 0) : number front last ≠ 0 := by
  induction front with
  | nil => exact fun h => hlast (UInt8.toNat_inj.1 h)
  | cons b front ih =>
    have hcons : number (b :: front) last = b.toNat - 128 + 128 * number front last := rfl
    omega

/-- The number of a slot is written as that slot if there is no shorter way to
    write it and zeros follow. -/
theorem Ends.digits_eq_iff (h : Ends slot front last rest) :
    digits slot.length (number front last) = slot ↔
      (∀ b ∈ rest, b = 0) ∧ (last ≠ 0 ∨ front = []) := by
  obtain ⟨rfl, hgoing, hlast⟩ := h
  induction front with
  | nil =>
    have hlt : last.toNat < 128 := UInt8.lt_iff_toNat_lt.1 hlast
    have hlen : (([] : Bytes) ++ last :: rest).length = rest.length + 1 := rfl
    have hnumber : number [] last = last.toNat := rfl
    have hbyte : last.toNat.toUInt8 = last := UInt8.ofNat_toNat
    have hzeros : List.replicate rest.length 0 = rest ↔ ∀ b ∈ rest, b = 0 := by
      rw [eq_comm, List.eq_replicate_iff, and_iff_right rfl]
    rw [hlen, hnumber, digits, if_pos hlt, hbyte, List.nil_append, List.cons.injEq, hzeros]
    simp
  | cons b front ih =>
    have hb : ¬ b.toNat < 128 := fun hlt =>
      hgoing b List.mem_cons_self (UInt8.lt_iff_toNat_lt.2 hlt)
    have hlow : b.toNat < 256 := b.toNat_lt
    have hlen : (b :: front ++ last :: rest).length = (front ++ last :: rest).length + 1 := rfl
    have hnumber : number (b :: front) last = b.toNat - 128 + 128 * number front last := rfl
    specialize ih fun c hc => hgoing c (List.mem_cons_of_mem b hc)
    by_cases hzero : number front last = 0
    · -- The digit of `b` would be the last one, so the byte written is below 128.
      have hlast : last = 0 := by_contra fun hne => number_ne_zero hne hzero
      have hsmall : number (b :: front) last < 128 := by omega
      have hwritten : (number (b :: front) last).toUInt8.toNat = number (b :: front) last :=
        toNat_toUInt8 (by omega)
      have hne : (number (b :: front) last).toUInt8 ≠ b := fun heq => hb (by rw [← heq]; omega)
      have hlong : ¬ (last ≠ 0 ∨ b :: front = []) := by simp [hlast]
      rw [hlen, digits, if_pos hsmall, List.cons_append, List.cons.injEq]
      exact iff_of_false (fun h => hne h.1) (fun h => hlong h.2)
    · have hlarge : ¬ number (b :: front) last < 128 := by omega
      have hdigit : (number (b :: front) last % 128 + 128).toUInt8 = b := by
        have hmod : number (b :: front) last % 128 + 128 = b.toNat := by omega
        rw [hmod]
        exact UInt8.ofNat_toNat
      have hrest : number (b :: front) last / 128 = number front last := by omega
      have hlastdigit : last ≠ 0 ∨ front = [] ↔ last ≠ 0 := by
        refine ⟨?_, Or.inl⟩
        rintro (hne | rfl) rfl
        · exact hne rfl
        · exact hzero rfl
      rw [hlen, digits, if_neg hlarge, hdigit, hrest, List.cons_append, List.cons.injEq, ih,
        hlastdigit]
      simp

/-- The word of a slot is written as that slot again if the slot is canonical. -/
theorem Ends.encodeWord?_eq_some_iff (hlen : slot.length = width) (h : Ends slot front last rest)
    (hv : decodeWord? slot = some v) :
    encodeWord? v = some slot ↔ (∀ b ∈ rest, b = 0) ∧ (last ≠ 0 ∨ front = []) := by
  have hrange := isSome_encodeWord?_iff.1 (isSome_encodeWord?_of_decodeWord? hlen hv)
  rw [Slot.encodeWord?_eq_some_iff, and_iff_right (zigzag_lt_limit_iff.2 hrange),
    h.zigzag_eq hlen hv, ← hlen]
  exact h.digits_eq_iff

/-- The slots that are written are the canonical ones. -/
theorem exists_encodeWord?_eq_some_iff :
    (∃ v, encodeWord? v = some slot) ↔ slot.length = width ∧ Canonical slot := by
  constructor
  · rintro ⟨v, h⟩
    have hlen : slot.length = width := length_of_write h
    have hread : decodeWord? slot = some v := decodeWord?_of_encodeWord? h
    obtain ⟨front, last, rest, hends⟩ :=
      exists_ends (isSome_decodeWord?_iff.1 (Option.isSome_of_eq_some hread))
    exact ⟨hlen, front, last, rest, hends, (hends.encodeWord?_eq_some_iff hlen hread).1 h⟩
  · rintro ⟨hlen, front, last, rest, hends, hcanonical⟩
    have hlast : ∃ b ∈ slot, b < 128 := ⟨last, by rw [hends.eq]; simp, hends.last⟩
    obtain ⟨v, hread⟩ := Option.isSome_iff_exists.1 (isSome_decodeWord?_iff.2 hlast)
    exact ⟨v, (hends.encodeWord?_eq_some_iff hlen hread).2 hcanonical⟩

/-! ## The codec -/

/-- Integer slots are exact. A word is written, within the eight turns there are, if
    it has 56 bits, and then its slot is read as that word. A slot of eight bytes is
    read if one of them is below 128; with the first such byte as the last digit, the
    word has 56 bits, stays the same whatever bytes are put behind that digit, and is
    written as that very slot if zeros lie behind the last digit and this digit is not
    zero, or is the only one. So no two words share a slot, and the slots that are
    written are the canonical ones. -/
theorem encodeWord?_decodeWord?_exact :
    (∀ v : Int64,
      ((encodeWord? v).isSome ↔ -0x80000000000000 ≤ v.toInt ∧ v.toInt < 0x80000000000000) ∧
      ∀ slot, encodeWord? v = some slot → decodeWord? slot = some v) ∧
    (∀ slot : Bytes, slot.length = width →
      ((decodeWord? slot).isSome ↔ ∃ b ∈ slot, b < 128) ∧
      ∀ v, decodeWord? slot = some v →
        (-0x80000000000000 ≤ v.toInt ∧ v.toInt < 0x80000000000000) ∧
        ∃ front last rest, Ends slot front last rest ∧
          (∀ tail, decodeWord? (front ++ last :: tail) = some v) ∧
          (encodeWord? v = some slot ↔ (∀ b ∈ rest, b = 0) ∧ (last ≠ 0 ∨ front = []))) ∧
    (∀ v w slot, encodeWord? v = some slot → encodeWord? w = some slot → v = w) ∧
    ∀ slot, (∃ v, encodeWord? v = some slot) ↔ slot.length = width ∧ Canonical slot := by
  refine ⟨fun v => ⟨isSome_encodeWord?_iff, fun slot => decodeWord?_of_encodeWord?⟩,
    fun slot hlen => ⟨isSome_decodeWord?_iff, ?_⟩, ?_, fun slot => exists_encodeWord?_eq_some_iff⟩
  · intro v hread
    have hsome := Option.isSome_of_eq_some hread
    obtain ⟨front, last, rest, hends⟩ := exists_ends (isSome_decodeWord?_iff.1 hsome)
    exact ⟨isSome_encodeWord?_iff.1 (isSome_encodeWord?_of_decodeWord? hlen hread),
      front, last, rest, hends, hends.behind hread, hends.encodeWord?_eq_some_iff hlen hread⟩
  · intro v w slot hv hw
    have hread : some v = some w :=
      (decodeWord?_of_encodeWord? hv).symm.trans (decodeWord?_of_encodeWord? hw)
    exact Option.some.inj hread

/-- The slot `80 01 AA 00 00 00 00 00` is read as 64, as it is with any other bytes
    behind `01`. With zeros there it is the slot that is written. The greatest word of
    56 bits has a slot, and the word behind it has none. -/
theorem encodeWord?_decodeWord?_exact_trailing :
    [0x80, 0x01, 0xAA, 0, 0, 0, 0, 0].length = width ∧
      decodeWord? [0x80, 0x01, 0xAA, 0, 0, 0, 0, 0] = some 64 ∧
      (∀ tail, decodeWord? ([0x80] ++ 0x01 :: tail) = some 64) ∧
      encodeWord? 64 ≠ some [0x80, 0x01, 0xAA, 0, 0, 0, 0, 0] ∧
      encodeWord? 64 = some [0x80, 0x01, 0, 0, 0, 0, 0, 0] ∧
      decodeWord? [0x80, 0x01, 0, 0, 0, 0, 0, 0] = some 64 ∧
      encodeWord? 0x7FFFFFFFFFFFFF = some [0xFE, 0xFF, 0xFF, 0xFF, 0xFF, 0xFF, 0xFF, 0x7F] ∧
      encodeWord? 0x80000000000000 = none := by
  have hread : decodeWord? [0x80, 0x01, 0xAA, 0, 0, 0, 0, 0] = some 64 := by decide +kernel
  have hwritten : encodeWord? 64 = some [0x80, 0x01, 0, 0, 0, 0, 0, 0] := by decide +kernel
  have hback := (encodeWord?_decodeWord?_exact.1 64).2 _ hwritten
  obtain ⟨-, front, last, rest, hends, htail, hcanonical⟩ :=
    (encodeWord?_decodeWord?_exact.2.1 _ rfl).2 64 hread
  obtain ⟨rfl, rfl, rfl⟩ : front = [0x80] ∧ last = 0x01 ∧ rest = [0xAA, 0, 0, 0, 0, 0] :=
    hends.unique ⟨rfl, List.forall_mem_singleton.2 (by decide), by decide⟩
  have hnone : ¬ (encodeWord? 0x80000000000000).isSome := fun h =>
    absurd ((encodeWord?_decodeWord?_exact.1 _).1.1 h).2 (by decide)
  refine ⟨rfl, hread, htail, fun h => ?_, hwritten, hback, by decide +kernel,
    Option.not_isSome_iff_eq_none.1 hnone⟩
  exact absurd ((hcanonical.1 h).1 0xAA List.mem_cons_self) (by decide)

end StackMachine.Slot
