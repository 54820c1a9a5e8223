-- SUMMARY: The comment of a line begins at the first semicolon that stands before all quotes or behind a closed literal.
import StackMachine.Proofs.Tokens

/-!
# Comments

The scan that looks for the comment of a line remembers the quote that has opened a
literal, and at each further quote of that kind looks ahead to see whether a comment
follows. What it finds can be said without the scan: a comment begins at a semicolon
if what stands before it has no quote, or ends with a quote of the kind that its
first quote is. Each state of the scan has an index rule of its own, and one more
character in front moves the indices of the rule by one.
-/

namespace StackMachine

/-! ## Cutting at an index -/

namespace Text

variable {P P' : Nat → Prop} {c : Char} {s t : Text}

/-- The text `s` is what stands in `t` before the least index of the class `P`, or all of
    `t` if there is no such index. -/
def CutAtFirst (P : Nat → Prop) (t s : Text) : Prop :=
  (∃ i, P i ∧ (∀ j < i, ¬ P j) ∧ s = t.take i) ∨ (∀ i, ¬ P i) ∧ s = t

theorem cutAtFirst_nil (h : ∀ i, ¬ P i) : CutAtFirst P [] [] :=
  .inr ⟨h, rfl⟩

theorem cutAtFirst_zero (h : P 0) (t : Text) : CutAtFirst P t [] :=
  .inl ⟨0, h, fun _ hj => absurd hj (Nat.not_lt_zero _), rfl⟩

/-- A character in front moves every index by one. -/
theorem CutAtFirst.cons (h : CutAtFirst P t s) (hzero : ¬ P' 0) (hsucc : ∀ i, P' (i + 1) ↔ P i) :
    CutAtFirst P' (c :: t) (c :: s) := by
  obtain ⟨i, hi, hleast, rfl⟩ | ⟨hnone, rfl⟩ := h
  · refine .inl ⟨i + 1, (hsucc i).2 hi, fun j hj => ?_, rfl⟩
    cases j with
    | zero => exact hzero
    | succ j => exact fun h => hleast j (Nat.lt_of_succ_lt_succ hj) ((hsucc j).1 h)
  · refine .inr ⟨fun i => ?_, rfl⟩
    cases i with
    | zero => exact hzero
    | succ i => exact fun h => hnone i ((hsucc i).1 h)

/-! ## The last character that is no blank -/

theorem getLast?_trimRight_cons (c : Char) (t : Text) :
    (trimRight (c :: t)).getLast? =
      (trimRight t).getLast?.or (if isBlank c then none else some c) := by
  simp only [trimRight, List.getLast?_reverse, List.reverse_cons, List.dropWhile_append]
  cases List.dropWhile isBlank t.reverse with
  | nil => cases h : isBlank c <;> simp [h]
  | cons d rest => simp

theorem getLast?_trimRight_eq_none_iff : (trimRight t).getLast? = none ↔ Blank t := by
  simp [trimRight, Blank]

end Text

/-! ## Where a comment begins -/

namespace SourceLine

open Text (Blank CutAtFirst cutAtFirst_nil cutAtFirst_zero getLast?_trimRight_cons
  getLast?_trimRight_eq_none_iff)

variable {q : Char} {t : Text} {i : Nat}

/-- Inside a literal between quotes `q`, a comment begins at the index: there is a semicolon,
    and the text before it ends with that quote, not counting the white space at its end. -/
def BeginsBehind (q : Char) (t : Text) (i : Nat) : Prop :=
  t[i]? = some ';' ∧ (Text.trimRight (t.take i)).getLast? = some q

/-- A comment may begin at the index: there is a semicolon, and either no quote stands before
    it, or the text between the first quote of all and the semicolon ends with a quote of the
    same kind, not counting the white space at its end. -/
def BeginsComment (text : Text) (i : Nat) : Prop :=
  text[i]? = some ';' ∧
    (QuoteFree (text.take i) ∨
      ∃ o q, text.findIdx? isQuote = some o ∧ text[o]? = some q ∧
        (Text.trimRight ((text.take i).drop (o + 1))).getLast? = some q)

theorem endsLiteral_of_blank_take (hi : t[i]? = some ';') (h : Blank (t.take i)) :
    endsLiteral t = true := by
  obtain ⟨hlt, hi⟩ := List.getElem?_eq_some_iff.1 hi
  rw [← List.take_append_drop i t, endsLiteral, Text.trimLeft_blank_append h,
    List.drop_eq_getElem_cons hlt, hi]
  rfl

/-- Where a quote has just closed a literal, only white space stands before the comment. -/
theorem cutAtFirst_of_endsLiteral (q : Char) (h : endsLiteral t = true) :
    CutAtFirst
      (fun i => t[i]? = some ';' ∧ ∀ d, (Text.trimRight (t.take i)).getLast? = some d → d = q) t
      (beforeComment none t) := by
  induction t with
  | nil => exact cutAtFirst_nil (by simp)
  | cons c t ih =>
    by_cases hc : c = ';'
    · rw [beforeComment, if_pos hc]
      exact cutAtFirst_zero (by simp [hc, Text.trimRight]) _
    · have hblank : Text.isBlank c = true := by
        cases hblank : Text.isBlank c with
        | true => rfl
        | false => simp [endsLiteral, Text.trimLeft, hblank, hc] at h
      have hrest : endsLiteral t = true := by
        simpa [endsLiteral, Text.trimLeft, hblank] using h
      rw [beforeComment, if_neg hc, isQuote_of_isBlank hblank, if_neg (by decide)]
      exact (ih hrest).cons (by simp [hc]) (by simp [getLast?_trimRight_cons, hblank])

/-- In an open literal the comment begins behind the first quote that closes it. -/
theorem cutAtFirst_literal (hq : isQuote q = true) (t : Text) :
    CutAtFirst (BeginsBehind q t) t (beforeComment (some q) t) := by
  have hblank : Text.isBlank q = false := isBlank_of_isQuote hq
  induction t with
  | nil => exact cutAtFirst_nil (by simp [BeginsBehind])
  | cons c t ih =>
    have hzero : ¬ BeginsBehind q (c :: t) 0 := by simp [BeginsBehind, Text.trimRight]
    rw [beforeComment]
    split
    · rename_i hcloses
      obtain ⟨rfl, hends⟩ := hcloses
      refine (cutAtFirst_of_endsLiteral c hends).cons hzero fun i => and_congr_right fun _ => ?_
      cases hlast : (Text.trimRight (t.take i)).getLast? <;>
        simp [getLast?_trimRight_cons, hblank, hlast]
    · rename_i hopen
      refine ih.cons hzero fun i => and_congr_right fun hi => ?_
      rw [List.getElem?_cons_succ] at hi
      cases hlast : (Text.trimRight (t.take i)).getLast? with
      | some d => simp [getLast?_trimRight_cons, hlast]
      | none =>
        -- Behind the character there are blanks only, so it is no quote that could close.
        have hends := endsLiteral_of_blank_take hi (getLast?_trimRight_eq_none_iff.1 hlast)
        have hc : c ≠ q := fun hc => hopen ⟨hc, hends⟩
        cases hcb : Text.isBlank c <;> simp [getLast?_trimRight_cons, hlast, hcb, hc]

/-- The comment of a line begins at the least index where one may begin, and a line without
    such an index has none. -/
theorem stripComment_cuts_at_first (text : Text) :
    CutAtFirst (BeginsComment text) text (stripComment text) := by
  unfold stripComment
  induction text with
  | nil => exact cutAtFirst_nil (by simp [BeginsComment])
  | cons c t ih =>
    rw [beforeComment]
    split
    · rename_i hc
      exact cutAtFirst_zero (by simp [BeginsComment, QuoteFree, hc]) _
    · rename_i hc
      have hzero : ¬ BeginsComment (c :: t) 0 := by simp [BeginsComment, hc]
      split
      · -- The first quote of all: what follows it is scanned as a literal.
        rename_i hq
        refine (cutAtFirst_literal hq t).cons hzero fun i => ?_
        simp [BeginsComment, BeginsBehind, QuoteFree, hq, List.findIdx?_cons]
      · rename_i hq
        refine ih.cons hzero fun i => ?_
        simp [BeginsComment, QuoteFree, hq, List.findIdx?_cons]

/-- A quote with a semicolon behind it closes the literal, and one of the other kind does not. -/
example : stripComment "PUSHSTR 'a'; b' ; c".toList = "PUSHSTR 'a'".toList ∧
    stripComment "PUSHSTR 'a\"; b' ; c".toList = "PUSHSTR 'a\"; b' ".toList := by
  decide

end SourceLine

end StackMachine
