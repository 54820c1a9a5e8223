-- SUMMARY: Where a source line has its words and its comment, and what stays if its last word changes.
import Mathlib.Data.List.Forall2
import Mathlib.Data.List.Induction
import Mathlib.Data.List.TakeWhile
import StackMachine.Assembly.SourceLine

/-!
# Source text

Trimming drops blanks at both ends and keeps all words. The last word of a text
stands behind a blank or at the very start, so another word can take its place
and leave the words before it as they were. If the code of a line has no quotes,
its comment begins at the first semicolon.
-/

namespace StackMachine

namespace Text

/-- The text is white space. -/
def Blank (t : Text) : Prop :=
  ∀ c ∈ t, isBlank c = true

/-- The text is one word. -/
def IsWord (t : Text) : Prop :=
  t ≠ [] ∧ ∀ c ∈ t, isBlank c = false

/-- A word that follows the text is a word of its own. -/
def Detached (t : Text) : Prop :=
  t = [] ∨ ∃ (s : Text) (b : Char), isBlank b = true ∧ t = s ++ [b]

/-- A word in front of the text is a word of its own. -/
def Parted (t : Text) : Prop :=
  t = [] ∨ ∃ (b : Char) (s : Text), isBlank b = true ∧ t = b :: s

variable {t u w blanks : Text}

theorem blank_singleton {c : Char} (h : isBlank c = true) : Blank [c] := by
  intro d hd
  rw [List.mem_singleton.1 hd]
  exact h

/-! ## Trimming -/

theorem exists_trimLeft (t : Text) : ∃ blanks, t = blanks ++ trimLeft t ∧ Blank blanks :=
  ⟨t.takeWhile isBlank, List.takeWhile_append_dropWhile.symm, fun _ => List.mem_takeWhile_imp⟩

theorem exists_trimRight (t : Text) : ∃ blanks, t = trimRight t ++ blanks ∧ Blank blanks := by
  obtain ⟨blanks, hsplit, hblanks⟩ := exists_trimLeft t.reverse
  refine ⟨blanks.reverse, ?_, fun c hc => hblanks c (List.mem_reverse.1 hc)⟩
  rw [trimRight, ← List.reverse_append]
  exact List.reverse_eq_iff.1 hsplit

theorem exists_trim (t : Text) :
    ∃ before after, t = before ++ trim t ++ after ∧ Blank before ∧ Blank after := by
  obtain ⟨before, hbefore, hblank⟩ := exists_trimLeft t
  obtain ⟨after, hafter, hblank'⟩ := exists_trimRight (trimLeft t)
  refine ⟨before, after, ?_, hblank, hblank'⟩
  rw [List.append_assoc, trim, ← hafter]
  exact hbefore

theorem trimRight_append_blank (h : Blank blanks) : trimRight (t ++ blanks) = trimRight t := by
  rw [trimRight, List.reverse_append, List.dropWhile_append_of_pos]
  · rfl
  · exact fun c hc => h c (List.mem_reverse.1 hc)

theorem trimRight_append_word (h : IsWord w) : trimRight (t ++ w) = t ++ w := by
  obtain ⟨init, last, rfl⟩ := List.eq_nil_or_concat w |>.resolve_left h.1
  have hlast : isBlank last = false := h.2 last (by simp)
  rw [trimRight, List.concat_eq_append, ← List.append_assoc, List.reverse_append]
  simp [hlast]

theorem trimLeft_append_word (h : IsWord w) (s : Text) :
    trimLeft (t ++ (w ++ s)) = trimLeft t ++ (w ++ s) := by
  obtain ⟨c, w, rfl⟩ := List.exists_cons_of_ne_nil h.1
  have hc : isBlank c = false := h.2 c List.mem_cons_self
  unfold trimLeft
  induction t with
  | nil => simp [hc]
  | cons d t ih =>
    rw [List.cons_append, List.dropWhile_cons, List.dropWhile_cons, ih]
    split <;> rfl

theorem trim_append_word (h : IsWord w) (hblanks : Blank blanks) :
    trim (t ++ (w ++ blanks)) = trimLeft t ++ w := by
  rw [trim, trimLeft_append_word h, ← List.append_assoc, trimRight_append_blank hblanks,
    trimRight_append_word h]

theorem trimLeft_trim (t : Text) : trimLeft (trim t) = trim t := by
  obtain ⟨blanks, hsplit, -⟩ := exists_trimRight (trimLeft t)
  change trimLeft t = trim t ++ blanks at hsplit
  cases htrim : trim t with
  | nil => rfl
  | cons c s =>
    rw [htrim] at hsplit
    have hc : isBlank c = false := by
      have hhead := List.head?_dropWhile_not isBlank t
      rw [trimLeft] at hsplit
      rw [hsplit] at hhead
      exact hhead
    simp [trimLeft, hc]

theorem trim_append_blank (h : Blank blanks) : trim (t ++ blanks) = trim t := by
  unfold trim trimLeft
  rw [List.dropWhile_append]
  split
  · rename_i hnil
    rw [List.isEmpty_iff.1 hnil, List.dropWhile_eq_nil_iff.2 h]
  · exact trimRight_append_blank h

theorem trim_dropReturn (t : Text) : trim (dropReturn t) = trim t := by
  unfold dropReturn
  split
  · rename_i hlast
    have hsplit : t = t.dropLast ++ ['\r'] := (List.dropLast_append_getLast? _ hlast).symm
    conv =>
      rhs
      rw [hsplit, trim_append_blank (blank_singleton rfl)]
  · rfl

/-! ## Lines -/

theorem not_of_mem_cut {p : Char → Bool} (h : u ∈ cut p t) : ∀ c ∈ u, p c = false := by
  induction t generalizing u with
  | nil =>
    obtain rfl := List.mem_singleton.1 h
    exact fun _ hc => (nomatch hc)
  | cons d t ih =>
    obtain ⟨first, others, hsplit⟩ := List.exists_cons_of_ne_nil (cut_ne_nil p t)
    rw [cut] at h
    rw [hsplit] at h ih
    split at h
    · rcases List.mem_cons.1 h with rfl | h
      · exact fun _ hc => (nomatch hc)
      · exact ih h
    · rename_i hd
      rcases List.mem_cons.1 h with rfl | h
      · intro c hc
        rcases List.mem_cons.1 hc with rfl | hc
        · exact Bool.eq_false_iff.2 hd
        · exact ih List.mem_cons_self c hc
      · exact ih (List.mem_cons_of_mem _ h)

/-- Stretches that are joined by a separator are cut apart at it. -/
theorem cut_intercalate {p : Char → Bool} {separator : Char} {stretches : List Text}
    (hp : p separator = true) (hne : stretches ≠ [])
    (h : ∀ s ∈ stretches, ∀ c ∈ s, p c = false) :
    cut p ([separator].intercalate stretches) = stretches := by
  induction stretches with
  | nil => exact absurd rfl hne
  | cons s stretches ih =>
    have hs : cut p s = [s] := cut_eq_singleton (h s List.mem_cons_self)
    cases stretches with
    | nil => simpa [List.intercalate] using hs
    | cons next others =>
      have hrest := ih (List.cons_ne_nil _ _) fun u hu => h u (List.mem_cons_of_mem s hu)
      have hjoin : [separator].intercalate (s :: next :: others) =
          s ++ separator :: [separator].intercalate (next :: others) := by
        simp [List.intercalate]
      rw [hjoin, cut_append_cons hp, hs, hrest]
      rfl

theorem linesOf_append {front back : List Text} (h : back ≠ []) :
    linesOf (front ++ back) = front.map dropReturn ++ linesOf back := by
  induction front with
  | nil => rfl
  | cons s front ih =>
    obtain ⟨next, others, hrest⟩ :=
      List.exists_cons_of_ne_nil (List.append_ne_nil_of_right_ne_nil front h)
    rw [List.cons_append, hrest, linesOf, ← hrest, ih, List.map_cons, List.cons_append]
    exact List.cons_ne_nil next others

/-- What stands behind a line feed has no part in the lines before it. -/
theorem lines_append_cons (s t : Text) :
    lines (s ++ '\n' :: t) = (cut (· = '\n') s).map dropReturn ++ lines t := by
  have hnewline : decide ('\n' = '\n') = true := rfl
  rw [lines, cut_append_cons hnewline, linesOf_append (cut_ne_nil _ t), lines]

/-- Rewriting stretches one by one rewrites lines one by one. -/
theorem forall₂_linesOf {g : Text → Text} (hg : ∀ s, g s = [] ↔ s = []) (stretches : List Text) :
    List.Forall₂ (fun line line' => ∃ s, trim line = trim s ∧ trim line' = trim (g s))
      (linesOf stretches) (linesOf (stretches.map g)) := by
  induction stretches with
  | nil => exact .nil
  | cons s stretches ih =>
    cases stretches with
    | nil =>
      rw [List.map_singleton, linesOf, linesOf]
      by_cases hs : s = []
      · rw [if_pos hs, if_pos ((hg s).2 hs)]
        exact .nil
      · rw [if_neg hs, if_neg fun hnil => hs ((hg s).1 hnil)]
        exact .cons ⟨s, rfl, rfl⟩ .nil
    | cons next others =>
      refine .cons ⟨s, trim_dropReturn s, trim_dropReturn (g s)⟩ ?_
      exact ih

/-! ## Words -/

theorem words_append_blank (h : Blank blanks) : words (t ++ blanks) = words t := by
  cases blanks with
  | nil => rw [List.append_nil]
  | cons b blanks =>
    have hnil : words blanks = [] := by
      induction blanks with
      | nil => rfl
      | cons c blanks ih =>
        rw [words_cons (h c (by simp))]
        exact ih fun d hd => h d (by
          rcases List.mem_cons.1 hd with rfl | hd
          · exact List.mem_cons_self
          · exact List.mem_cons_of_mem _ (List.mem_cons_of_mem _ hd))
    rw [words_append_cons (h b List.mem_cons_self), hnil, List.append_nil]

theorem words_blank_append (h : Blank blanks) : words (blanks ++ t) = words t := by
  induction blanks with
  | nil => rfl
  | cons b blanks ih =>
    rw [List.cons_append, words_cons (h b List.mem_cons_self)]
    exact ih fun c hc => h c (List.mem_cons_of_mem b hc)

@[simp] theorem words_trim (t : Text) : words (trim t) = words t := by
  obtain ⟨before, after, hsplit, hbefore, hafter⟩ := exists_trim t
  have hwords := congrArg words hsplit
  rw [words_append_blank hafter, words_blank_append hbefore] at hwords
  exact hwords.symm

theorem words_append_word (ht : Detached t) (hw : IsWord w) : words (t ++ w) = words t ++ [w] := by
  obtain rfl | ⟨s, b, hb, rfl⟩ := ht
  · exact words_eq_singleton hw.1 hw.2
  · rw [List.append_assoc, List.singleton_append, words_append_cons hb,
      words_eq_singleton hw.1 hw.2, words_append_cons hb, words_nil, List.append_nil]

theorem words_word_append (hw : IsWord w) (ht : Parted t) : words (w ++ t) = w :: words t := by
  obtain rfl | ⟨b, s, hb, rfl⟩ := ht
  · rw [List.append_nil, words_eq_singleton hw.1 hw.2, words_nil]
  · rw [words_append_cons hb, words_eq_singleton hw.1 hw.2, words_cons hb, List.singleton_append]

/-- A text that begins with something other than white space begins with a word. -/
theorem exists_word_append {c : Char} (hc : isBlank c = false) (t : Text) :
    ∃ w rest, c :: t = w ++ rest ∧ IsWord w ∧ Parted rest := by
  let black (c : Char) : Bool := !isBlank c
  refine ⟨(c :: t).takeWhile black, (c :: t).dropWhile black,
    List.takeWhile_append_dropWhile.symm, ⟨?_, fun d hd => ?_⟩, ?_⟩
  · simp [black, hc]
  · simpa [black] using List.mem_takeWhile_imp hd
  · have hhead := List.head?_dropWhile_not black (c :: t)
    cases hrest : (c :: t).dropWhile black with
    | nil => exact .inl rfl
    | cons b s =>
      rw [hrest] at hhead
      exact .inr ⟨b, s, by simpa [black] using hhead, rfl⟩

/-- The first word of a text, and what stands before and behind it. -/
theorem exists_first_word (h : (words t).head? = some w) :
    ∃ blanks rest, t = blanks ++ (w ++ rest) ∧ Blank blanks ∧ IsWord w ∧ Parted rest := by
  induction t with
  | nil => cases h
  | cons c t ih =>
    cases hc : isBlank c with
    | true =>
      rw [words_cons hc] at h
      obtain ⟨blanks, rest, rfl, hblanks, hw, hrest⟩ := ih h
      refine ⟨c :: blanks, rest, rfl, fun d hd => ?_, hw, hrest⟩
      obtain rfl | hd := List.mem_cons.1 hd
      · exact hc
      · exact hblanks d hd
    | false =>
      obtain ⟨w', rest, hsplit, hw', hrest⟩ := exists_word_append hc t
      rw [hsplit, words_word_append hw' hrest] at h
      obtain rfl := Option.some.inj h
      exact ⟨[], rest, hsplit, nofun, hw', hrest⟩

/-- A trimmed text begins with its first word. -/
theorem trim_eq_of_head?_words (h : (words (trim t)).head? = some w) :
    ∃ rest, trim t = w ++ rest ∧ IsWord w ∧ Parted rest := by
  obtain ⟨blanks, rest, hsplit, hblanks, hw, hrest⟩ := exists_first_word h
  refine ⟨rest, ?_, hw, hrest⟩
  have hleft := trimLeft_append_word (t := blanks) hw rest
  have hnil : trimLeft blanks = [] := List.dropWhile_eq_nil_iff.2 hblanks
  rw [← hsplit, trimLeft_trim, hnil] at hleft
  exact hleft

theorem exists_word_of_concat {c : Char} (hc : isBlank c = false) (t : Text) :
    ∃ u w, t ++ [c] = u ++ w ∧ Detached u ∧ IsWord w := by
  -- The word begins at the last blank before `c`, so the induction is from the end.
  induction t using List.reverseRecOn generalizing c with
  | nil => exact ⟨[], [c], rfl, .inl rfl, List.cons_ne_nil _ _, by simpa using hc⟩
  | append_singleton t b ih =>
    cases hb : isBlank b with
    | true =>
      exact ⟨t ++ [b], [c], rfl, .inr ⟨t, b, hb, rfl⟩, List.cons_ne_nil _ _, by simpa using hc⟩
    | false =>
      obtain ⟨u, w, hsplit, hu, hw⟩ := ih hb
      refine ⟨u, w ++ [c], ?_, hu, by simp, fun d hd => ?_⟩
      · rw [hsplit, List.append_assoc]
      · rcases List.mem_append.1 hd with hd | hd
        · exact hw.2 d hd
        · rw [List.mem_singleton.1 hd]
          exact hc

theorem Detached.of_append (h : Detached (t ++ u)) : Detached u := by
  obtain hnil | ⟨s, b, hb, hsplit⟩ := h
  · exact .inl (List.append_eq_nil_iff.1 hnil).2
  · rcases List.eq_nil_or_concat u with rfl | ⟨u, b', rfl⟩
    · exact .inl rfl
    · rw [List.concat_eq_append, ← List.append_assoc] at hsplit
      obtain ⟨-, hlast⟩ := List.append_inj' hsplit rfl
      obtain rfl := List.singleton_inj.1 hlast
      exact .inr ⟨u, b', hb, List.concat_eq_append⟩

/-- The last word of a text, and what stands before and behind it. -/
theorem exists_last_word (h : (words t).getLast? = some w) :
    ∃ u blanks, t = u ++ (w ++ blanks) ∧ Detached u ∧ IsWord w ∧ Blank blanks := by
  induction t using List.reverseRecOn with
  | nil => cases h
  | append_singleton t c ih =>
    cases hc : isBlank c with
    | true =>
      have hblank : Blank [c] := blank_singleton hc
      rw [words_append_blank hblank] at h
      obtain ⟨u, blanks, rfl, hu, hw, hblanks⟩ := ih h
      refine ⟨u, blanks ++ [c], by simp, hu, hw, fun d hd => ?_⟩
      rcases List.mem_append.1 hd with hd | hd
      · exact hblanks d hd
      · exact hblank d hd
    | false =>
      obtain ⟨u, w', hsplit, hu, hw⟩ := exists_word_of_concat hc t
      rw [hsplit, words_append_word hu hw, List.getLast?_concat] at h
      obtain rfl := Option.some.inj h
      exact ⟨u, [], by rw [List.append_nil, hsplit], hu, hw, fun _ hd => (nomatch hd)⟩

end Text

namespace SourceLine

open Text (Blank IsWord Detached)

variable {t u w line : Text}

/-! ## Comments -/

/-- The text has no quote of either kind. -/
def QuoteFree (t : Text) : Prop :=
  ∀ c ∈ t, isQuote c = false

instance (t : Text) : Decidable (QuoteFree t) :=
  List.decidableBAll _ t

theorem QuoteFree.append (ht : QuoteFree t) (hu : QuoteFree u) : QuoteFree (t ++ u) := by
  intro c hc
  rcases List.mem_append.1 hc with hc | hc
  · exact ht c hc
  · exact hu c hc

theorem QuoteFree.of_append (h : QuoteFree (t ++ u)) : QuoteFree t ∧ QuoteFree u :=
  ⟨fun c hc => h c (List.mem_append_left u hc), fun c hc => h c (List.mem_append_right t hc)⟩

theorem isQuote_of_isBlank {c : Char} (h : Text.isBlank c = true) : isQuote c = false := by
  cases hquote : isQuote c with
  | false => rfl
  | true =>
    simp only [isQuote, Bool.or_eq_true, decide_eq_true_eq] at hquote
    rcases hquote with rfl | rfl <;> cases h

theorem quoteFree_of_blank (h : Blank t) : QuoteFree t :=
  fun c hc => isQuote_of_isBlank (h c hc)

theorem quoteFree_trim : QuoteFree (Text.trim t) ↔ QuoteFree t := by
  obtain ⟨before, after, hsplit, hbefore, hafter⟩ := Text.exists_trim t
  constructor
  · intro h
    rw [hsplit]
    exact ((quoteFree_of_blank hbefore).append h).append (quoteFree_of_blank hafter)
  · intro h
    rw [hsplit] at h
    exact h.of_append.1.of_append.2

/-- The text before the first semicolon. -/
def code (line : Text) : Text :=
  line.takeWhile (· ≠ ';')

theorem code_cons_of_ne {c : Char} (h : c ≠ ';') (t : Text) : code (c :: t) = c :: code t := by
  simp [code, h]

theorem ne_semicolon_of_isBlank {c : Char} (h : Text.isBlank c = true) : c ≠ ';' := by
  rintro rfl
  cases h

/-- Where the code has no quotes the comment begins at the first semicolon. -/
theorem stripComment_eq_code (h : QuoteFree (code t)) : stripComment t = code t := by
  unfold stripComment
  induction t with
  | nil => rfl
  | cons c t ih =>
    by_cases hc : c = ';'
    · subst hc
      rfl
    · rw [code_cons_of_ne hc] at h
      have hquote : isQuote c = false := h c List.mem_cons_self
      rw [code_cons_of_ne hc, beforeComment, if_neg hc, hquote, if_neg (by decide),
        ih fun d hd => h d (List.mem_cons_of_mem c hd)]

/-- What has no quotes before its comment has none before its first semicolon. -/
theorem quoteFree_code_of_stripComment (h : QuoteFree (stripComment t)) : QuoteFree (code t) := by
  unfold stripComment at h
  induction t with
  | nil => exact h
  | cons c t ih =>
    by_cases hc : c = ';'
    · subst hc
      exact h
    · rw [beforeComment, if_neg hc] at h
      have hquote : isQuote c = false := h c List.mem_cons_self
      rw [hquote, if_neg (by decide)] at h
      rw [code_cons_of_ne hc]
      intro d hd
      rcases List.mem_cons.1 hd with rfl | hd
      · exact hquote
      · exact ih (fun e he => h e (List.mem_cons_of_mem c he)) d hd

theorem isPrefix_beforeComment (quote : Option Char) (t : Text) : beforeComment quote t <+: t := by
  induction t generalizing quote with
  | nil => cases quote <;> exact List.prefix_rfl
  | cons c t ih =>
    cases quote with
    | none =>
      rw [beforeComment]
      split
      · exact List.nil_prefix
      · exact List.cons_prefix_cons.2 ⟨rfl, ih _⟩
    | some q => exact List.cons_prefix_cons.2 ⟨rfl, ih _⟩

theorem beforeComment_subset (quote : Option Char) (t : Text) : beforeComment quote t ⊆ t :=
  (isPrefix_beforeComment quote t).subset

theorem trimLeft_code (t : Text) : Text.trimLeft (code t) = code (Text.trimLeft t) := by
  induction t with
  | nil => rfl
  | cons c t ih =>
    cases hc : Text.isBlank c with
    | true =>
      have hne := ne_semicolon_of_isBlank hc
      simp only [Text.trimLeft] at ih
      simp only [Text.trimLeft, code_cons_of_ne hne, List.dropWhile_cons, hc, if_true, ih]
    | false =>
      by_cases hne : c = ';'
      · subst hne
        rfl
      · simp [Text.trimLeft, code_cons_of_ne hne, hc]

theorem trimRight_code (t : Text) :
    Text.trimRight (code (Text.trimRight t)) = Text.trimRight (code t) := by
  obtain ⟨blanks, hsplit, hblanks⟩ := Text.exists_trimRight t
  -- The blanks belong to the code unless a comment stands before them.
  have hcode : code t = code (Text.trimRight t) ∨ code t = code (Text.trimRight t) ++ blanks := by
    have happend := congrArg code hsplit
    rw [code, code, List.takeWhile_append] at happend
    split at happend
    · rename_i hlength
      have hself : code (Text.trimRight t) = Text.trimRight t :=
        (List.takeWhile_prefix _).eq_of_length hlength
      have hblank : code blanks = blanks := List.takeWhile_eq_self_iff.2 fun c hc => by
        simpa using ne_semicolon_of_isBlank (hblanks c hc)
      rw [hself]
      exact .inr (happend.trans (congrArg _ hblank))
    · exact .inl happend
  rcases hcode with h | h
  · rw [h]
  · rw [h, Text.trimRight_append_blank hblanks]

theorem trim_code_trim (t : Text) : Text.trim (code (Text.trim t)) = Text.trim (code t) := by
  calc Text.trim (code (Text.trim t))
      = Text.trimRight (code (Text.trim t)) := by
        rw [Text.trim, trimLeft_code, Text.trimLeft_trim]
    _ = Text.trim (code t) := by
        rw [Text.trim, trimRight_code, Text.trim, trimLeft_code]

/-- The text of a line without its comment, if there are no quotes in it. -/
theorem trim_stripComment_trim (h : QuoteFree (code line)) :
    Text.trim (stripComment (Text.trim line)) = Text.trim (code line) := by
  have htrimmed : QuoteFree (code (Text.trim line)) := by
    rw [← quoteFree_trim, trim_code_trim, quoteFree_trim]
    exact h
  rw [stripComment_eq_code htrimmed, trim_code_trim]

theorem quoteFree_code (h : QuoteFree (Text.trim (stripComment (Text.trim line)))) :
    QuoteFree (code line) := by
  have htrimmed := quoteFree_code_of_stripComment (quoteFree_trim.1 h)
  rw [← quoteFree_trim, ← trim_code_trim, quoteFree_trim]
  exact htrimmed

/-! ## Labels and instructions -/

variable {name rest mnemonic operands : Text} {labels : List Text}

/-- What is cut off in front of the instruction are labels, colons and blanks. -/
theorem exists_of_splitLabels (h : splitLabels name t = (labels, rest)) :
    ∃ front, name.reverse ++ t = front ++ rest ∧
      ∀ c ∈ front, Text.isBlank c = true ∨ c = ':' ∨ ∃ label ∈ labels, c ∈ label := by
  induction t generalizing name labels rest with
  | nil =>
    cases h
    exact ⟨[], List.append_nil _, fun _ hc => (nomatch hc)⟩
  | cons d t ih =>
    rw [splitLabels] at h
    split at h
    · rename_i hcolon
      cases hsplit : splitLabels [] t with
      | mk others rest' =>
        rw [hsplit] at h
        cases h
        obtain ⟨front, hfront, hchars⟩ := ih hsplit
        refine ⟨name.reverse ++ d :: front, ?_, fun c hc => ?_⟩
        · rw [List.append_assoc, List.cons_append, ← hfront]
          rfl
        · rcases List.mem_append.1 hc with hc | hc
          · exact .inr (.inr ⟨_, List.mem_cons_self, hc⟩)
          · rcases List.mem_cons.1 hc with rfl | hc
            · exact .inr (.inl hcolon)
            · obtain hblank | hcolon | ⟨label, hlabel, hc⟩ := hchars c hc
              · exact .inl hblank
              · exact .inr (.inl hcolon)
              · exact .inr (.inr ⟨label, List.mem_cons_of_mem _ hlabel, hc⟩)
    · split at h
      · rename_i hblank
        split at h
        · rename_i hname
          obtain ⟨front, hfront, hchars⟩ := ih h
          refine ⟨d :: front, by rw [hname, List.cons_append, ← hfront]; rfl, fun c hc => ?_⟩
          rcases List.mem_cons.1 hc with rfl | hc
          · exact .inl hblank
          · exact hchars c hc
        · cases h
          exact ⟨[], rfl, fun _ hc => (nomatch hc)⟩
      · obtain ⟨front, hfront, hchars⟩ := ih h
        refine ⟨front, ?_, hchars⟩
        rw [← hfront, List.reverse_cons, List.append_assoc]
        rfl

/-- Where the instruction has a blank, the word at the end of the text has no
    part in cutting off the labels. -/
theorem splitLabels_append_word (hname : ∀ c ∈ name, Text.isBlank c = false) (hw : IsWord w)
    (h : splitLabels name (t ++ w) = (labels, rest)) (hrest : ∃ c ∈ rest, Text.isBlank c = true) :
    ∃ front, rest = front ++ w ∧ (∃ c ∈ front, Text.isBlank c = true) ∧
      ∀ w', splitLabels name (t ++ w') = (labels, front ++ w') := by
  have hempty : ∀ c ∈ ([] : Text), Text.isBlank c = false := fun _ hc => (nomatch hc)
  induction t generalizing name labels rest with
  | nil =>
    -- Neither the word nor the name that has been begun has a blank.
    obtain ⟨front, hfront, -⟩ := exists_of_splitLabels h
    obtain ⟨c, hc, hblank⟩ := hrest
    have hmem : c ∈ name.reverse ++ w := by
      rw [List.nil_append] at hfront
      rw [hfront]
      exact List.mem_append_right front hc
    rcases List.mem_append.1 hmem with hc | hc
    · rw [hname c (List.mem_reverse.1 hc)] at hblank
      cases hblank
    · rw [hw.2 c hc] at hblank
      cases hblank
  | cons d t ih =>
    rw [List.cons_append, splitLabels] at h
    simp only [List.cons_append, splitLabels]
    split at h
    · rename_i hcolon
      cases hsplit : splitLabels [] (t ++ w) with
      | mk others rest' =>
        rw [hsplit] at h
        cases h
        obtain ⟨front, hfront, hblank, hall⟩ := ih hempty hsplit hrest
        refine ⟨front, hfront, hblank, fun w' => ?_⟩
        rw [if_pos hcolon, hall w']
    · rename_i hcolon
      simp only [if_neg hcolon]
      split at h
      · rename_i hd
        simp only [if_pos hd]
        split at h
        · rename_i hnil
          simp only [if_pos hnil]
          exact ih hempty h hrest
        · rename_i hne
          cases h
          refine ⟨name.reverse ++ d :: t, by simp, ⟨d, by simp, hd⟩, fun w' => ?_⟩
          rw [if_neg hne, List.append_assoc]
          rfl
      · rename_i hd
        simp only [if_neg hd]
        refine ih (fun c hc => ?_) h hrest
        rcases List.mem_cons.1 hc with rfl | hc
        · exact Bool.eq_false_iff.2 hd
        · exact hname c hc

theorem splitInstruction_eq_some :
    splitInstruction t = some (mnemonic, operands) ↔
      mnemonic ≠ [] ∧ t.takeWhile (fun c => !Text.isBlank c) = mnemonic ∧
        operands = Text.trim (t.dropWhile fun c => !Text.isBlank c) := by
  have hdrop : t.drop (t.takeWhile fun c => !Text.isBlank c).length =
      t.dropWhile fun c => !Text.isBlank c := by
    conv =>
      lhs
      arg 2
      rw [← List.takeWhile_append_dropWhile (p := fun c => !Text.isBlank c) (l := t)]
    exact List.drop_left
  unfold splitInstruction
  split
  · rename_i hnil
    rw [hnil]
    exact ⟨fun h => (nomatch h), fun h => absurd h.2.1.symm h.1⟩
  · rename_i hne
    rw [hdrop]
    constructor
    · intro h
      cases h
      exact ⟨hne, rfl, rfl⟩
    · rintro ⟨-, rfl, rfl⟩
      rfl

end SourceLine

end StackMachine
