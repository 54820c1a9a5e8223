-- SUMMARY: What a source line says depends on its labels, its mnemonic and the tokens of its operands.
import StackMachine.Proofs.Labels
import StackMachine.Proofs.ListingSource

/-!
# Tokens

Before its comment a line has labels and blanks, and then an instruction or
nothing. The operands of an instruction are read token by token: words, and the
literal that a quote begins. White space parts the tokens and does nothing else.
-/

namespace StackMachine

/-! ## Blanks and words -/

namespace Text

variable {s t u w blanks : Text}

theorem Blank.append (hs : Blank s) (ht : Blank t) : Blank (s ++ t) := by
  intro c hc
  obtain hc | hc := List.mem_append.1 hc
  · exact hs c hc
  · exact ht c hc

theorem trimLeft_blank_append (h : Blank blanks) (t : Text) :
    trimLeft (blanks ++ t) = trimLeft t :=
  List.dropWhile_append_of_pos h

theorem trim_blank_append (h : Blank blanks) (t : Text) : trim (blanks ++ t) = trim t := by
  rw [trim, trimLeft_blank_append h, trim]

theorem Blank.parted (h : Blank blanks) (hne : blanks ≠ []) (t : Text) : Parted (blanks ++ t) := by
  obtain ⟨b, s, rfl⟩ := List.exists_cons_of_ne_nil hne
  exact .inr ⟨b, s ++ t, h b List.mem_cons_self, rfl⟩

theorem Blank.detached (h : Blank blanks) (hne : blanks ≠ []) (t : Text) :
    Detached (t ++ blanks) := by
  obtain ⟨s, b, rfl⟩ := List.eq_nil_or_concat blanks |>.resolve_left hne
  exact .inr ⟨t ++ s, b, h b (by simp), by simp⟩

theorem Blank.detached_self (h : Blank blanks) : Detached blanks := by
  by_cases hne : blanks = []
  · exact .inl hne
  · exact h.detached hne []

theorem IsWord.not_detached_append (h : IsWord w) (t : Text) : ¬ Detached (t ++ w) := by
  obtain ⟨s, c, rfl⟩ := List.eq_nil_or_concat w |>.resolve_left h.1
  have hc : isBlank c = false := h.2 c (by simp)
  rintro (hnil | ⟨u, b, hb, hsplit⟩)
  · simp at hnil
  · rw [List.concat_eq_append, ← List.append_assoc] at hsplit
    obtain ⟨-, hlast⟩ := List.append_inj' hsplit rfl
    rw [← List.singleton_inj.1 hlast, hc] at hb
    cases hb

theorem Parted.append (h : Parted s) (hne : s ≠ []) (t : Text) : Parted (s ++ t) := by
  obtain rfl | ⟨b, s, hb, rfl⟩ := h
  · exact absurd rfl hne
  · exact .inr ⟨b, s ++ t, hb, rfl⟩

theorem words_append_of_detached (h : Detached s) (t : Text) :
    words (s ++ t) = words s ++ words t := by
  obtain rfl | ⟨s, b, hb, rfl⟩ := h
  · rfl
  · rw [List.append_assoc, List.singleton_append, words_append_cons hb, words_append_cons hb,
      words_nil, List.append_nil]

theorem mem_of_mem_cut {p : Char → Bool} {c : Char} (h : u ∈ cut p t) (hc : c ∈ u) : c ∈ t := by
  induction t generalizing u with
  | nil =>
    obtain rfl := List.mem_singleton.1 h
    cases hc
  | cons d t ih =>
    obtain ⟨first, others, hsplit⟩ := List.exists_cons_of_ne_nil (cut_ne_nil p t)
    rw [cut] at h
    rw [hsplit] at h ih
    split at h
    · obtain rfl | h := List.mem_cons.1 h
      · cases hc
      · exact List.mem_cons_of_mem d (ih h hc)
    · obtain rfl | h := List.mem_cons.1 h
      · obtain rfl | hc := List.mem_cons.1 hc
        · exact List.mem_cons_self
        · exact List.mem_cons_of_mem d (ih List.mem_cons_self hc)
      · exact List.mem_cons_of_mem d (ih (List.mem_cons_of_mem first h) hc)

theorem mem_of_mem_words {c : Char} (h : w ∈ words t) (hc : c ∈ w) : c ∈ t :=
  mem_of_mem_cut (List.mem_filter.1 h).1 hc

theorem blank_of_words_eq_nil (h : words t = []) : Blank t := by
  intro c hc
  obtain hblank | ⟨w, hw, -⟩ := mem_words hc
  · exact hblank
  · rw [h] at hw
    cases hw

/-- The only word of a text, and what stands around it. -/
theorem exists_of_words_eq_singleton (h : words t = [w]) :
    ∃ before after, t = before ++ (w ++ after) ∧ Blank before ∧ IsWord w ∧ Blank after := by
  obtain ⟨before, after, rfl, hbefore, hw, hafter⟩ := exists_first_word (congrArg List.head? h)
  refine ⟨before, after, rfl, hbefore, hw, blank_of_words_eq_nil ?_⟩
  rw [words_blank_append hbefore, words_word_append hw hafter] at h
  exact (List.cons.inj h).2

end Text

namespace SourceLine

open Text (Blank IsWord Detached Parted)

variable {s t u w line : Text} {labels : List Text}

/-! ## Comments -/

theorem clean_of_blank (h : Blank t) : Clean t :=
  fun c hc => ⟨ne_semicolon_of_isBlank (h c hc), isQuote_of_isBlank (h c hc)⟩

theorem endsLiteral_of_blank (h : Blank t) : endsLiteral t = true := by
  have hnil : Text.trimLeft t = [] := List.dropWhile_eq_nil_iff.2 h
  rw [endsLiteral, hnil]

/-- Blanks and a comment behind a text change nothing about what begins it. -/
theorem endsLiteral_append (h : endsLiteral u = true) (t : Text) :
    endsLiteral (t ++ u) = endsLiteral t := by
  cases ht : Text.trimLeft t with
  | nil =>
    have hblank : Blank t := List.dropWhile_eq_nil_iff.1 ht
    rw [endsLiteral_of_blank hblank, ← h, endsLiteral, Text.trimLeft_blank_append hblank,
      endsLiteral]
  | cons c rest =>
    have happend : Text.trimLeft (t ++ u) = c :: rest ++ u := by
      rw [← ht, Text.trimLeft, List.dropWhile_append, if_neg]
      · rfl
      · simpa [Text.trimLeft] using congrArg List.isEmpty ht
    rw [endsLiteral, endsLiteral, happend, ht]
    rfl

theorem endsLiteral_append_blank (h : Blank u) (t : Text) :
    endsLiteral (t ++ u) = endsLiteral t :=
  endsLiteral_append (endsLiteral_of_blank h) t

theorem beforeComment_blank (h : Blank t) (quote : Option Char) : beforeComment quote t = t := by
  induction t generalizing quote with
  | nil => cases quote <;> rfl
  | cons c t ih =>
    have hrest : ∀ quote, beforeComment quote t = t :=
      ih fun d hd => h d (List.mem_cons_of_mem c hd)
    cases quote with
    | none =>
      rw [beforeComment, if_neg (ne_semicolon_of_isBlank (h c List.mem_cons_self)), hrest]
    | some q => rw [beforeComment, hrest]

/-- Blanks at the end of a line stand before its comment, or belong to it. -/
theorem beforeComment_append_blank (h : Blank u) (quote : Option Char) (t : Text) :
    beforeComment quote (t ++ u) = beforeComment quote t ++ u ∨
      beforeComment quote (t ++ u) = beforeComment quote t := by
  induction t generalizing quote with
  | nil =>
    left
    rw [List.nil_append, beforeComment_blank h]
    cases quote <;> rfl
  | cons c t ih =>
    rw [List.cons_append]
    cases quote with
    | none =>
      rw [beforeComment, beforeComment]
      split
      · exact .inr rfl
      · exact (ih _).imp (congrArg (c :: ·)) (congrArg (c :: ·))
    | some q =>
      rw [beforeComment, beforeComment, endsLiteral_append_blank h]
      exact (ih _).imp (congrArg (c :: ·)) (congrArg (c :: ·))

theorem trim_stripComment (line : Text) :
    Text.trim (stripComment (Text.trim line)) = Text.trim (stripComment line) := by
  obtain ⟨before, after, hsplit, hbefore, hafter⟩ := Text.exists_trim line
  have hcomment := beforeComment_append_blank hafter none (Text.trim line)
  change stripComment (Text.trim line ++ after) = stripComment (Text.trim line) ++ after ∨
    stripComment (Text.trim line ++ after) = stripComment (Text.trim line) at hcomment
  conv =>
    rhs
    rw [hsplit, List.append_assoc, stripComment_append (clean_of_blank hbefore),
      Text.trim_blank_append hbefore]
  obtain hkept | hdropped := hcomment
  · rw [hkept, Text.trim_append_blank hafter]
  · rw [hdropped]

/-! ## Labels and the instruction behind them -/

/-- The text has these labels, and besides them only blanks. -/
inductive Heads : List Text → Text → Prop
  | nil : Heads [] []
  | blank {labels : List Text} {c : Char} {t : Text} (blank : Text.isBlank c = true)
      (rest : Heads labels t) : Heads labels (c :: t)
  | label {labels : List Text} {name t : Text}
      (named : ∀ c ∈ name, Text.isBlank c = false ∧ c ≠ ':') (rest : Heads labels t) :
      Heads (name :: labels) (name ++ ':' :: t)

theorem heads_of_blank (h : Blank t) : Heads [] t := by
  induction t with
  | nil => exact .nil
  | cons c t ih =>
    exact .blank (h c List.mem_cons_self) (ih fun d hd => h d (List.mem_cons_of_mem c hd))

theorem Heads.append_blank (h : Heads labels t) (hu : Blank u) : Heads labels (t ++ u) := by
  induction h with
  | nil => exact heads_of_blank hu
  | blank hc _ ih => exact .blank hc ih
  | @label _ name t named _ ih =>
    rw [List.append_assoc]
    exact .label named ih

theorem ne_colon_of_isBlank {c : Char} (h : Text.isBlank c = true) : c ≠ ':' := by
  rintro rfl
  cases h

theorem splitLabels_of_named {name : Text} (h : ∀ c ∈ t, Text.isBlank c = false ∧ c ≠ ':')
    (u : Text) : splitLabels name (t ++ u) = splitLabels (t.reverse ++ name) u := by
  induction t generalizing name with
  | nil => rfl
  | cons c t ih =>
    obtain ⟨hblank, hcolon⟩ := h c List.mem_cons_self
    rw [List.cons_append, splitLabels, if_neg hcolon, hblank, if_neg (by decide),
      ih fun d hd => h d (List.mem_cons_of_mem c hd), List.reverse_cons, List.append_assoc]
    rfl

theorem Heads.splitLabels_append (h : Heads labels t) (u : Text) :
    splitLabels [] (t ++ u) = (labels ++ (splitLabels [] u).1, (splitLabels [] u).2) := by
  induction h with
  | nil => rfl
  | blank hc _ ih =>
    rw [List.cons_append, splitLabels, if_neg (ne_colon_of_isBlank hc), if_pos hc, if_pos rfl, ih]
  | label named _ ih =>
    rw [List.append_assoc, splitLabels_of_named named, List.append_nil, List.cons_append,
      splitLabels, if_pos rfl, ih, List.reverse_reverse]
    rfl

/-- What begins an instruction, namely a word that is no label. -/
structure Opens (w : Text) : Prop where
  word : IsWord w
  colon : ':' ∉ w

theorem Opens.named (h : Opens w) : ∀ c ∈ w, Text.isBlank c = false ∧ c ≠ ':' := by
  intro c hc
  refine ⟨h.word.2 c hc, ?_⟩
  rintro rfl
  exact h.colon hc

theorem Opens.splitLabels_append (h : Opens w) (hu : Parted u) :
    splitLabels [] (w ++ u) = ([], w ++ u) := by
  rw [splitLabels_of_named h.named, List.append_nil]
  obtain rfl | ⟨b, s, hb, rfl⟩ := hu
  · rw [splitLabels, List.reverse_reverse, List.append_nil]
  · have hne : w.reverse ≠ [] := by simpa using h.word.1
    rw [splitLabels, if_neg (ne_colon_of_isBlank hb), if_pos hb, if_neg hne, List.reverse_reverse]

theorem splitInstruction_append (hw : IsWord w) (hu : Parted u) :
    splitInstruction (w ++ u) = some (w, Text.trim u) := by
  have hkeep : ∀ c ∈ w, (!Text.isBlank c) = true := fun c hc => by simp [hw.2 c hc]
  rw [splitInstruction_eq_some, List.takeWhile_append_of_pos hkeep,
    List.dropWhile_append_of_pos hkeep]
  obtain rfl | ⟨b, s, hb, rfl⟩ := hu
  · simp [hw.1]
  · simp [hw.1, hb]

/-- A text without an instruction. -/
theorem Heads.ofText_eq (h : Heads labels t) : ofText t = ⟨labels, none⟩ := by
  have hsplit := h.splitLabels_append []
  rw [List.append_nil, splitLabels, List.append_nil] at hsplit
  rw [ofText, hsplit]
  rfl

/-- A text with an instruction. -/
theorem Heads.ofText_append (h : Heads labels t) (hw : Opens w) (hu : Parted u) :
    ofText (t ++ (w ++ u)) = ⟨labels, some (w, Text.trim u)⟩ := by
  have hsplit := h.splitLabels_append (w ++ u)
  rw [hw.splitLabels_append hu, List.append_nil] at hsplit
  rw [ofText, hsplit]
  exact congrArg _ (splitInstruction_append hw.word hu)

/-- Every text has labels and blanks, and then an instruction or nothing. -/
theorem exists_heads (t : Text) :
    ∃ labels front body, t = front ++ body ∧ Heads labels front ∧
      (body = [] ∨ ∃ w rest, body = w ++ rest ∧ Opens w ∧ Parted rest) := by
  induction hn : t.length using Nat.strong_induction_on generalizing t with
  | _ n ih =>
    let isNamed (c : Char) : Bool := !Text.isBlank c && c ≠ ':'
    have hsplit : t.takeWhile isNamed ++ t.dropWhile isNamed = t :=
      List.takeWhile_append_dropWhile
    have hnamed : ∀ c ∈ t.takeWhile isNamed, Text.isBlank c = false ∧ c ≠ ':' := by
      intro c hc
      simpa [isNamed] using List.mem_takeWhile_imp hc
    have hopens (hne : t.takeWhile isNamed ≠ []) : Opens (t.takeWhile isNamed) :=
      ⟨⟨hne, fun c hc => (hnamed c hc).1⟩, fun hc => (hnamed _ hc).2 rfl⟩
    have hhead := List.head?_dropWhile_not isNamed t
    generalize t.takeWhile isNamed = w at hsplit hnamed hopens
    cases hrest : t.dropWhile isNamed with
    | nil =>
      rw [hrest, List.append_nil] at hsplit
      subst hsplit
      by_cases hne : w = []
      · exact ⟨[], [], [], hne, .nil, .inl rfl⟩
      · exact ⟨[], [], w, rfl, .nil, .inr ⟨w, [], (List.append_nil w).symm, hopens hne, .inl rfl⟩⟩
    | cons d rest =>
      rw [hrest] at hsplit hhead
      have hlength : rest.length < n := by
        rw [← hn, ← hsplit, List.length_append, List.length_cons]
        omega
      by_cases hcolon : d = ':'
      · obtain ⟨labels, front, body, rfl, hheads, hinstruction⟩ := ih _ hlength rest rfl
        refine ⟨w :: labels, w ++ ':' :: front, body, ?_, .label hnamed hheads, hinstruction⟩
        rw [← hsplit, hcolon, List.append_assoc, List.cons_append]
      · have hblank : Text.isBlank d = true := by
          simpa [isNamed, hcolon] using hhead
        by_cases hne : w = []
        · obtain ⟨labels, front, body, rfl, hheads, hinstruction⟩ := ih _ hlength rest rfl
          refine ⟨labels, d :: front, body, ?_, .blank hblank hheads, hinstruction⟩
          rw [← hsplit, hne]
          rfl
        · exact ⟨[], [], t, rfl, .nil,
            .inr ⟨w, d :: rest, hsplit.symm, hopens hne, .inr ⟨d, rest, hblank, rfl⟩⟩⟩

theorem ofText_blank_append (h : Blank u) (t : Text) : ofText (u ++ t) = ofText t := by
  rw [ofText, (heads_of_blank h).splitLabels_append]
  rfl

theorem ofText_append_blank (h : Blank u) (t : Text) : ofText (t ++ u) = ofText t := by
  obtain ⟨labels, front, body, rfl, hheads, rfl | ⟨w, rest, rfl, hw, hrest⟩⟩ := exists_heads t
  · rw [List.append_nil, hheads.ofText_eq, (hheads.append_blank h).ofText_eq]
  · have hparted : Parted (rest ++ u) := by
      by_cases hne : rest = []
      · rw [hne, List.nil_append]
        by_cases hu : u = []
        · exact .inl hu
        · have hparted := h.parted hu []
          rwa [List.append_nil] at hparted
      · exact hrest.append hne u
    rw [List.append_assoc, List.append_assoc, hheads.ofText_append hw hparted,
      hheads.ofText_append hw hrest, Text.trim_append_blank h]

theorem ofText_trim (t : Text) : ofText (Text.trim t) = ofText t := by
  obtain ⟨before, after, hsplit, hbefore, hafter⟩ := Text.exists_trim t
  conv =>
    rhs
    rw [hsplit, ofText_append_blank hafter, ofText_blank_append hbefore]

/-- A line says what the text before its comment says. -/
theorem parse_eq (line : Text) : parse line = ofText (stripComment line) := by
  rw [parse_eq_ofText, trim_stripComment, ofText_trim]

end SourceLine

/-! ## Tokens of operands -/

namespace Argument

open SourceLine (QuoteFree isBlank_of_isQuote isQuote)
open Text (Blank IsWord Detached Parted Solid)

variable {layout : Layout} {s t u w : Text} {parts : List (OperandKind × Text)}
  {arguments : List Argument} {argument : Argument} {kind : OperandKind}

/-- The text before the first quote. -/
def opening (t : Text) : Text :=
  t.takeWhile fun c => !isQuote c

/-- The text from the first quote on. -/
def quoted (t : Text) : Text :=
  Text.trimRight (t.dropWhile fun c => !isQuote c)

/-- The tokens of an operand text. The first quote begins a literal, if the layout
    has a string. -/
def tokens (layout : Layout) (t : Text) : List Text :=
  if .string ∈ layout.kinds then Text.words (opening t) ++ [quoted t].filter (· ≠ [])
  else Text.words t

/-- White space stands in front of a literal. -/
def Apart (layout : Layout) (t : Text) : Prop :=
  .string ∈ layout.kinds → quoted t = [] ∨ Detached (opening t)

theorem opening_append (h : QuoteFree s) (t : Text) : opening (s ++ t) = s ++ opening t :=
  List.takeWhile_append_of_pos fun c hc => by simp [h c hc]

theorem quoted_append (h : QuoteFree s) (t : Text) : quoted (s ++ t) = quoted t :=
  congrArg Text.trimRight (List.dropWhile_append_of_pos fun c hc => by simp [h c hc])

theorem tokens_append (h : QuoteFree s) (hs : Detached s) (t : Text) :
    tokens layout (s ++ t) = Text.words s ++ tokens layout t := by
  unfold tokens
  rw [opening_append h, quoted_append h, Text.words_append_of_detached hs,
    Text.words_append_of_detached hs]
  split
  · rw [List.append_assoc]
  · rfl

theorem parted_opening (h : Parted t) : Parted (opening t) := by
  obtain rfl | ⟨b, s, hb, rfl⟩ := h
  · exact .inl rfl
  · refine .inr ⟨b, opening s, hb, ?_⟩
    simp [opening, SourceLine.isQuote_of_isBlank hb]

theorem tokens_word_append (h : QuoteFree w) (hw : IsWord w) (ht : Parted t) :
    tokens layout (w ++ t) = w :: tokens layout t := by
  unfold tokens
  rw [opening_append h, quoted_append h, Text.words_word_append hw (parted_opening ht),
    Text.words_word_append hw ht]
  split
  · rfl
  · rfl

theorem detached_append (hs : Detached s) (ht : Detached t) : Detached (s ++ t) := by
  obtain rfl | ⟨t, b, hb, rfl⟩ := ht
  · rwa [List.append_nil]
  · exact .inr ⟨s ++ t, b, hb, (List.append_assoc s t [b]).symm⟩

theorem apart_append (h : QuoteFree s) (hs : Detached s) (t : Text) :
    Apart layout (s ++ t) ↔ Apart layout t := by
  unfold Apart
  rw [opening_append h, quoted_append h]
  exact imp_congr_right fun _ =>
    or_congr_right ⟨fun hd => hd.of_append, fun hd => detached_append hs hd⟩

theorem apart_word_append (h : QuoteFree w) (ht : Parted t) :
    Apart layout (w ++ t) ↔ Apart layout t := by
  unfold Apart
  rw [opening_append h, quoted_append h]
  refine imp_congr_right fun _ => ?_
  obtain rfl | ⟨b, s, hb, rfl⟩ := ht
  · exact iff_of_true (.inl rfl) (.inl rfl)
  · have hopening : opening (b :: s) = b :: opening s := by
      simp [opening, SourceLine.isQuote_of_isBlank hb]
    rw [hopening]
    refine or_congr_right ⟨fun hd => hd.of_append, ?_⟩
    rintro (hnil | ⟨u, d, hd, hsplit⟩)
    · cases hnil
    · exact .inr ⟨w ++ u, d, hd, by rw [hsplit, List.append_assoc]⟩

/-! ## Literals -/

/-- The text is a quote, and what follows up to another quote of its kind. -/
def IsLiteral (t : Text) : Prop :=
  ∃ q contents, isQuote q = true ∧ t = q :: contents ++ [q]

theorem isLiteral_of_reads (h : Reads .string t argument) : IsLiteral t := by
  cases h with
  | string quote _ => exact ⟨_, _, quote, rfl⟩

theorem IsLiteral.solid (h : IsLiteral t) : Solid t := by
  obtain ⟨q, contents, hq, rfl⟩ := h
  have hblank := isBlank_of_isQuote hq
  exact ⟨⟨q, contents ++ [q], rfl, hblank⟩, ⟨q :: contents, q, rfl, hblank⟩⟩

theorem IsLiteral.not_quoteFree (h : IsLiteral t) : ¬ QuoteFree t := by
  obtain ⟨q, contents, hq, rfl⟩ := h
  intro hfree
  rw [hfree q List.mem_cons_self] at hq
  cases hq

/-- A literal with blanks behind it begins with its quote. -/
theorem IsLiteral.opening_append (h : IsLiteral t) (hs : QuoteFree s) (hu : Blank u) :
    opening (s ++ (t ++ u)) = s ∧ quoted (s ++ (t ++ u)) = t := by
  have hsolid := h.solid.trim_eq
  obtain ⟨q, contents, hq, rfl⟩ := h
  rw [Argument.opening_append hs, quoted_append hs]
  constructor
  · simp [opening, hq]
  · have hdrop :
        quoted (q :: contents ++ [q] ++ u) = Text.trimRight (q :: contents ++ [q] ++ u) := by
      simp [quoted, hq]
    rw [hdrop, Text.trimRight_append_blank hu]
    exact Text.trimRight_append_word ⟨List.cons_ne_nil q [], by simpa using isBlank_of_isQuote hq⟩

theorem IsLiteral.not_parted_append (h : IsLiteral t) (u : Text) : ¬ Parted (t ++ u) := by
  obtain ⟨q, contents, hq, rfl⟩ := h
  rintro (hnil | ⟨b, s, hb, hsplit⟩)
  · cases hnil
  · rw [← (List.cons.inj hsplit).1, isBlank_of_isQuote hq] at hb
    cases hb

theorem quoteFree_of_reads_register (h : Reads .register t argument) : QuoteFree t := by
  cases h with
  | register named => exact (Reads.register named).quoteFree_of_register

theorem quoteFree_opening (t : Text) : QuoteFree (opening t) := by
  intro c hc
  simpa using List.mem_takeWhile_imp hc

/-! ## Splitting into tokens -/

/-- If the layout has a string, the literal is the last token, and a register may
    stand before it. -/
theorem cases_of_string (h : .string ∈ layout.kinds) :
    layout = .string ∨ layout = .registerString := by
  cases layout with
  | string => exact .inl rfl
  | registerString => exact .inr rfl
  | _ => exact absurd h (by decide)

theorem split_of_not_string (h : .string ∉ layout.kinds) :
    split layout t =
      if (Text.words t).length = layout.kinds.length then .ok (layout.kinds.zip (Text.words t))
      else .error (.arity layout) := by
  cases layout with
  | string | registerString => exact absurd (by decide) h
  | _ => rfl

theorem split_registerString_eq_ok (h : split .registerString t = .ok parts) :
    ∃ r, (Text.words t).head? = some r ∧
      parts = [(.register, r), (.string, Text.trim (t.drop r.length))] := by
  unfold split at h
  split at h
  · contradiction
  · rename_i hwords
    cases h
    exact ⟨_, congrArg List.head? hwords, rfl⟩
  · cases h
  · contradiction

theorem IsLiteral.tokens_append (h : IsLiteral t) (hstring : .string ∈ layout.kinds)
    (hs : QuoteFree s) (hdetached : Detached s) (hu : Blank u) :
    Apart layout (s ++ (t ++ u)) ∧ tokens layout (s ++ (t ++ u)) = Text.words s ++ [t] := by
  obtain ⟨hopening, hquoted⟩ := h.opening_append hs hu
  rw [Apart, tokens, if_pos hstring, hopening, hquoted]
  exact ⟨fun _ => .inr hdetached, by simp [h.solid.ne_nil]⟩

theorem IsLiteral.tokens_eq (h : IsLiteral (Text.trim t)) :
    Apart .string t ∧ tokens .string t = [Text.trim t] := by
  obtain ⟨before, after, hsplit, hbefore, hafter⟩ := Text.exists_trim t
  have hfree := SourceLine.quoteFree_of_blank hbefore
  have hnil : Text.words before = [] := Text.words_append_blank (t := []) hbefore
  have hstring : .string ∈ Layout.string.kinds := by decide
  have htokens := h.tokens_append hstring hfree hbefore.detached_self hafter
  rw [← List.append_assoc, ← hsplit, hnil] at htokens
  exact htokens

theorem IsLiteral.tokens_register_eq {r rest : Text} (h : IsLiteral (Text.trim rest))
    (htrim : Text.trim t = r ++ rest) (hr : IsWord r) (hquotes : QuoteFree r)
    (hparted : Parted rest) :
    Apart .registerString t ∧ tokens .registerString t = [r, Text.trim rest] := by
  obtain ⟨before, after, hsplit, hbefore, hafter⟩ := Text.exists_trim t
  obtain ⟨blanks, rear, hsplit', hblanks, hrear⟩ := Text.exists_trim rest
  have hne : blanks ≠ [] := by
    rintro rfl
    rw [hsplit'] at hparted
    exact h.not_parted_append rear hparted
  have ht : t = before ++ r ++ blanks ++ (Text.trim rest ++ (rear ++ after)) := by
    rw [htrim] at hsplit
    conv =>
      lhs
      rw [hsplit, hsplit']
    simp
  have hwords : Text.words (before ++ r ++ blanks) = [r] := by
    rw [Text.words_append_blank hblanks, Text.words_blank_append hbefore,
      Text.words_eq_singleton hr.1 hr.2]
  have hfree := ((SourceLine.quoteFree_of_blank hbefore).append hquotes).append
    (SourceLine.quoteFree_of_blank hblanks)
  have hstring : .string ∈ Layout.registerString.kinds := by decide
  have htokens := h.tokens_append hstring hfree
    (hblanks.detached hne _) (hrear.append hafter)
  rw [← ht, hwords] at htokens
  exact htokens

/-- What operands are split into are the tokens of their text. -/
theorem tokens_of_split (h : split layout (Text.trim t) = .ok parts)
    (hreads : List.Forall₂ (fun part argument => Reads part.1 part.2 argument) parts arguments) :
    Apart layout t ∧ parts.map Prod.snd = tokens layout t := by
  by_cases hstring : .string ∈ layout.kinds
  · obtain rfl | rfl := cases_of_string hstring
    · cases h
      obtain ⟨argument, _, hread, -, -⟩ := List.forall₂_cons_left_iff.1 hreads
      obtain ⟨hapart, htokens⟩ := (isLiteral_of_reads hread).tokens_eq
      exact ⟨hapart, htokens.symm⟩
    · obtain ⟨r, hr, rfl⟩ := split_registerString_eq_ok h
      obtain ⟨rest, hrest, hword, hparted⟩ := Text.trim_eq_of_head?_words hr
      rw [hrest, List.drop_left] at hreads ⊢
      obtain ⟨_, _, hregister, hreads', -⟩ := List.forall₂_cons_left_iff.1 hreads
      obtain ⟨_, _, hread, -, -⟩ := List.forall₂_cons_left_iff.1 hreads'
      obtain ⟨hapart, htokens⟩ := (isLiteral_of_reads hread).tokens_register_eq hrest hword
        (quoteFree_of_reads_register hregister) hparted
      exact ⟨hapart, htokens.symm⟩
  · refine ⟨fun h => absurd h hstring, ?_⟩
    rw [map_snd_of_split h hstring, tokens, if_neg hstring, Text.words_trim]

/-- A literal at the end of the tokens is the one that the first quote begins. -/
theorem quoted_of_tokens {before : List Text} (hw : IsLiteral w)
    (h : before ++ [w] = Text.words (opening t) ++ [quoted t].filter (· ≠ [])) :
    Text.words (opening t) = before ∧ quoted t = w ∧
      ∃ u, Blank u ∧ t = opening t ++ (w ++ u) := by
  by_cases hnil : quoted t = []
  · have hmem : w ∈ Text.words (opening t) := by
      simp only [hnil, ne_eq, not_true_eq_false, decide_false, Bool.false_eq_true,
        not_false_eq_true, List.filter_cons_of_neg, List.filter_nil, List.append_nil] at h
      rw [← h]
      simp
    exact absurd (fun c hc => quoteFree_opening t c (Text.mem_of_mem_words hmem hc))
      hw.not_quoteFree
  · rw [List.filter_cons_of_pos (by simpa using hnil), List.filter_nil] at h
    obtain ⟨rfl, hlast⟩ := List.append_inj' h rfl
    obtain ⟨u, hu, hblank⟩ := Text.exists_trimRight (t.dropWhile fun c => !isQuote c)
    refine ⟨rfl, (List.singleton_inj.1 hlast).symm, u, hblank, ?_⟩
    rw [List.singleton_inj.1 hlast, quoted, ← hu]
    exact List.takeWhile_append_dropWhile.symm

theorem split_registerString_append {blanks r : Text} (hr : IsWord r) (hblanks : Blank blanks)
    (hne : blanks ≠ []) (ht : Solid t) :
    split .registerString (r ++ (blanks ++ t)) = .ok [(.register, r), (.string, t)] := by
  obtain ⟨w, ws, hwords⟩ := List.exists_cons_of_ne_nil ht.words_ne_nil
  have hsplit : Text.words (r ++ (blanks ++ t)) = r :: w :: ws := by
    rw [Text.words_word_append hr (hblanks.parted hne t), Text.words_blank_append hblanks, hwords]
  have htrim : Text.trim ((r ++ (blanks ++ t)).drop r.length) = t := by
    rw [List.drop_left, Text.trim_blank_append hblanks, ht.trim_eq]
  unfold split
  rw [hsplit]
  exact congrArg (fun s => Except.ok [(OperandKind.register, r), (OperandKind.string, s)]) htrim

theorem trim_of_literal (hw : IsLiteral w) (htokens : [w] = tokens .string t) :
    Text.trim t = w := by
  change [] ++ [w] = Text.words (opening t) ++ [quoted t].filter (· ≠ []) at htokens
  obtain ⟨hwords, -, u, hu, ht⟩ := quoted_of_tokens hw htokens
  rw [ht, Text.trim_blank_append (Text.blank_of_words_eq_nil hwords), Text.trim_append_blank hu,
    hw.solid.trim_eq]

theorem exists_trim_of_register_literal {r : Text} (hw : IsLiteral w)
    (hapart : Apart .registerString t) (htokens : [r, w] = tokens .registerString t) :
    ∃ blanks, Text.trim t = r ++ (blanks ++ w) ∧ IsWord r ∧ Blank blanks ∧ blanks ≠ [] := by
  change [r] ++ [w] = Text.words (opening t) ++ [quoted t].filter (· ≠ []) at htokens
  obtain ⟨hwords, hquoted, u, hu, ht⟩ := quoted_of_tokens hw htokens
  obtain ⟨before, blanks, hopening, hbefore, hr, hblanks⟩ :=
    Text.exists_of_words_eq_singleton hwords
  refine ⟨blanks, ?_, hr, hblanks, ?_⟩
  · have hsolid := hr.solid.append hw.solid blanks
    rw [List.append_assoc] at hsolid
    have hsplit : t = before ++ (r ++ (blanks ++ w) ++ u) := by
      rw [ht, hopening]
      simp
    rw [hsplit, Text.trim_blank_append hbefore, Text.trim_append_blank hu, hsolid.trim_eq]
  · rintro rfl
    obtain hnil | hdetached := hapart (by decide)
    · rw [hquoted] at hnil
      exact hw.solid.ne_nil hnil
    · rw [hopening, List.append_nil] at hdetached
      exact hr.not_detached_append before hdetached

/-- Tokens that can be read are what their text is split into. -/
theorem split_of_tokens (hapart : Apart layout t) (hkinds : parts.map Prod.fst = layout.kinds)
    (htokens : parts.map Prod.snd = tokens layout t)
    (hreads : List.Forall₂ (fun part argument => Reads part.1 part.2 argument) parts arguments) :
    split layout (Text.trim t) = .ok parts := by
  by_cases hstring : .string ∈ layout.kinds
  · obtain rfl | rfl := cases_of_string hstring
    · obtain ⟨⟨kind, w⟩, _, rfl, rfl, hnil⟩ := List.map_eq_cons_iff.1 hkinds
      obtain rfl := List.map_eq_nil_iff.1 hnil
      obtain ⟨_, _, hread, -, -⟩ := List.forall₂_cons_left_iff.1 hreads
      rw [trim_of_literal (isLiteral_of_reads hread) htokens]
      rfl
    · obtain ⟨⟨kind, r⟩, rest, rfl, rfl, hrest⟩ := List.map_eq_cons_iff.1 hkinds
      obtain ⟨⟨kind, w⟩, _, rfl, rfl, hnil⟩ := List.map_eq_cons_iff.1 hrest
      obtain rfl := List.map_eq_nil_iff.1 hnil
      obtain ⟨_, _, -, hreads', -⟩ := List.forall₂_cons_left_iff.1 hreads
      obtain ⟨_, _, hread, -, -⟩ := List.forall₂_cons_left_iff.1 hreads'
      have hliteral := isLiteral_of_reads hread
      obtain ⟨blanks, htrim, hr, hblanks, hne⟩ :=
        exists_trim_of_register_literal hliteral hapart htokens
      rw [htrim]
      exact split_registerString_append hr hblanks hne hliteral.solid
  · rw [tokens, if_neg hstring] at htokens
    have hlength : (Text.words (Text.trim t)).length = layout.kinds.length := by
      rw [Text.words_trim, ← hkinds, ← htokens, List.length_map, List.length_map]
    rw [split_of_not_string hstring, if_pos hlength, Text.words_trim,
      ← List.zip_of_prod hkinds htokens]

/-! ## Reading tokens -/

variable {words : List Text}

/-- The second token is read as all that the first one is read as. -/
def Respelled (w w' : Text) : Prop :=
  ∀ kind argument, Reads kind w argument → Reads kind w' argument

theorem forall₂_respelled_refl (words : List Text) : List.Forall₂ Respelled words words :=
  List.forall₂_same.2 fun _ _ _ _ => id

theorem exists_parts (hwords : List.Forall₂ Respelled (parts.map Prod.snd) words)
    (hreads : List.Forall₂ (fun part argument => Reads part.1 part.2 argument) parts arguments) :
    ∃ parts' : List (OperandKind × Text), parts'.map Prod.fst = parts.map Prod.fst ∧
      parts'.map Prod.snd = words ∧
      List.Forall₂ (fun part argument => Reads part.1 part.2 argument) parts' arguments := by
  induction hreads generalizing words with
  | nil =>
    cases hwords
    exact ⟨[], rfl, rfl, .nil⟩
  | cons hread _ ih =>
    obtain ⟨w, rest, hw, hrest, rfl⟩ := List.forall₂_cons_left_iff.1 hwords
    obtain ⟨parts', hkinds, rfl, hreads'⟩ := ih hrest
    refine ⟨(_, w) :: parts', ?_, rfl, .cons (hw _ _ hread) hreads'⟩
    rw [List.map_cons, List.map_cons, hkinds]

/-- Operands are read from their tokens. -/
theorem readAll_of_tokens (h : readAll layout (Text.trim s) = (arguments, none))
    (hapart : Apart layout s → Apart layout t)
    (htokens : List.Forall₂ Respelled (tokens layout s) (tokens layout t)) :
    readAll layout (Text.trim t) = (arguments, none) := by
  obtain ⟨parts, hsplit, hreads⟩ := readAll_eq_none.1 h
  obtain ⟨hs, hparts⟩ := tokens_of_split hsplit hreads
  rw [← hparts] at htokens
  obtain ⟨parts', hkinds, hparts', hreads'⟩ := exists_parts htokens hreads
  rw [map_fst_of_split hsplit] at hkinds
  exact readAll_eq_none.2 ⟨parts', split_of_tokens (hapart hs) hkinds hparts' hreads', hreads'⟩

end Argument

end StackMachine
