-- SUMMARY: A line of a listing is a source line: its offset is a label, its operands are read back.
import StackMachine.Proofs.PlainText

/-!
# Listings as source text

A line of a listing has its offset as a label in front of the instruction. All
but a string is written in words, and a string is the last operand of its
instruction, so whatever delimiters are in its contents stand in a literal that
goes on to the end of the line.
-/

namespace StackMachine

/-! ## Joined texts -/

namespace Text

/-- The text begins and ends with something other than white space. -/
structure Solid (t : Text) : Prop where
  head : ∃ c s, t = c :: s ∧ isBlank c = false
  last : ∃ s c, t = s ++ [c] ∧ isBlank c = false

variable {s t u : Text} {ts : List Text}

theorem isBlank_space : isBlank ' ' = true := rfl

theorem IsWord.solid (h : IsWord t) : Solid t := by
  constructor
  · obtain ⟨c, s, rfl⟩ := List.exists_cons_of_ne_nil h.1
    exact ⟨c, s, rfl, h.2 c List.mem_cons_self⟩
  · obtain ⟨s, c, rfl⟩ := List.eq_nil_or_concat t |>.resolve_left h.1
    exact ⟨s, c, List.concat_eq_append, h.2 c (by simp)⟩

namespace Solid

theorem ne_nil (h : Solid t) : t ≠ [] := by
  obtain ⟨c, s, rfl, -⟩ := h.head
  exact List.cons_ne_nil c s

theorem append (hs : Solid s) (ht : Solid t) (u : Text) : Solid (s ++ u ++ t) := by
  obtain ⟨c, s', rfl, hc⟩ := hs.head
  obtain ⟨t', d, rfl, hd⟩ := ht.last
  exact ⟨⟨c, _, rfl, hc⟩, ⟨_, d, (List.append_assoc _ t' [d]).symm, hd⟩⟩

theorem trimLeft_eq (h : Solid t) : trimLeft t = t := by
  obtain ⟨c, s, rfl, hc⟩ := h.head
  simp [trimLeft, hc]

theorem trim_eq (h : Solid t) : trim t = t := by
  obtain ⟨s, c, hlast, hc⟩ := h.last
  rw [trim, h.trimLeft_eq, hlast]
  simp [trimRight, hc]

theorem trim_cons (h : Solid t) {c : Char} (hc : isBlank c = true) : trim (c :: t) = t := by
  have hleft : trimLeft (c :: t) = trimLeft t := by simp [trimLeft, hc]
  rw [trim, hleft]
  exact h.trim_eq

theorem words_ne_nil (h : Solid t) : words t ≠ [] := by
  obtain ⟨c, s, rfl, hc⟩ := h.head
  obtain hblank | ⟨w, hw, -⟩ := mem_words (List.mem_cons_self (a := c) (l := s))
  · rw [hblank] at hc
    cases hc
  · exact List.ne_nil_of_mem hw

end Solid

theorem solid_intercalate {separator : Text} (hne : ts ≠ []) (h : ∀ t ∈ ts, Solid t) :
    Solid (separator.intercalate ts) := by
  induction ts with
  | nil => exact absurd rfl hne
  | cons t ts ih =>
    have ht : Solid t := h t List.mem_cons_self
    cases ts with
    | nil => rwa [List.intercalate_singleton]
    | cons next others =>
      have hrest := ih (List.cons_ne_nil _ _) fun u hu => h u (List.mem_cons_of_mem t hu)
      rw [List.intercalate_cons_cons]
      exact ht.append hrest separator

theorem mem_intercalate {separator : Text} {c : Char} (h : c ∈ separator.intercalate ts) :
    c ∈ separator ∨ ∃ t ∈ ts, c ∈ t := by
  induction ts with
  | nil => cases h
  | cons t ts ih =>
    cases ts with
    | nil =>
      rw [List.intercalate_singleton] at h
      exact .inr ⟨t, List.mem_cons_self, h⟩
    | cons next others =>
      rw [List.intercalate_cons_cons, List.append_assoc, List.mem_append, List.mem_append] at h
      obtain h | h | h := h
      · exact .inr ⟨t, List.mem_cons_self, h⟩
      · exact .inl h
      · obtain h | ⟨u, hu, h⟩ := ih h
        · exact .inl h
        · exact .inr ⟨u, List.mem_cons_of_mem t hu, h⟩

/-- Words that are joined by blanks are the words of the text. -/
theorem words_intercalate (h : ∀ t ∈ ts, IsWord t) : words ([' '].intercalate ts) = ts := by
  by_cases hne : ts = []
  · rw [hne]
    rfl
  · rw [words, cut_intercalate rfl hne fun t ht => (h t ht).2, List.filter_eq_self]
    exact fun t ht => decide_eq_true (h t ht).1

/-- Lines that are joined by line feeds are the lines of the text. -/
theorem lines_intercalate (h : ∀ t ∈ ts, Solid t ∧ '\n' ∉ t) :
    lines (['\n'].intercalate ts) = ts := by
  have hlines : linesOf ts = ts := by
    induction ts with
    | nil => rfl
    | cons t ts ih =>
      have ht : Solid t := (h t List.mem_cons_self).1
      cases ts with
      | nil => rw [linesOf, if_neg ht.ne_nil]
      | cons next others =>
        obtain ⟨s, c, hlast, hc⟩ := ht.last
        have hreturn : dropReturn t = t := by
          refine if_neg ?_
          rw [hlast, List.getLast?_concat]
          rintro ⟨⟩
          cases hc
        rw [linesOf, hreturn, ih fun u hu => h u (List.mem_cons_of_mem t hu)]
        exact List.cons_ne_nil _ _
  by_cases hne : ts = []
  · rw [hne]
    rfl
  · rw [lines, cut_intercalate (by decide) hne, hlines]
    intro t ht c hc
    rw [decide_eq_false_iff_not]
    rintro rfl
    exact (h t ht).2 hc

end Text

/-! ## Source lines -/

namespace SourceLine

variable {label s t w : Text}

/-- Neither a comment nor a literal begins in the text. -/
def Clean (t : Text) : Prop :=
  ∀ c ∈ t, c ≠ ';' ∧ isQuote c = false

theorem Clean.append (hs : Clean s) (ht : Clean t) : Clean (s ++ t) := by
  intro c hc
  rcases List.mem_append.1 hc with hc | hc
  · exact hs c hc
  · exact ht c hc

theorem clean_space : Clean [' '] := by
  intro c hc
  obtain rfl := List.mem_singleton.1 hc
  decide

theorem clean_of_word (h : Listing.Word w) : Clean w :=
  fun c hc => (Listing.not_delimiter_of_isWordChar (h.2 c hc)).2.2

theorem stripComment_append (h : Clean s) (t : Text) :
    stripComment (s ++ t) = s ++ stripComment t := by
  unfold stripComment
  induction s with
  | nil => rfl
  | cons c s ih =>
    obtain ⟨hc, hquote⟩ := h c List.mem_cons_self
    rw [List.cons_append, beforeComment, if_neg hc, hquote, if_neg (by decide),
      ih fun d hd => h d (List.mem_cons_of_mem c hd)]
    rfl

theorem Clean.stripComment_eq (h : Clean t) : stripComment t = t := by
  have happend := stripComment_append h []
  rw [List.append_nil] at happend
  rw [happend]
  exact List.append_nil t

theorem stripComment_space (t : Text) : stripComment (' ' :: t) = ' ' :: stripComment t :=
  stripComment_append clean_space t

/-- The text can stand in a literal between quotes `q`: in the text no such quote has
    a comment behind it, with or without white space in between. -/
def Enclosed (q : Char) (s : Text) : Prop :=
  ∀ rest, q :: rest <:+ s → (Text.trimLeft rest).head? ≠ some ';'

theorem enclosed_of_not_mem {q : Char} (h : q ∉ s) : Enclosed q s :=
  fun _ hrest => absurd (hrest.subset List.mem_cons_self) h

theorem isBlank_of_isQuote {c : Char} (h : isQuote c = true) : Text.isBlank c = false := by
  cases hblank : Text.isBlank c with
  | false => rfl
  | true =>
    rw [isQuote_of_isBlank hblank] at h
    cases h

/-- The last quote of a literal keeps a quote of its contents from ending it. -/
theorem endsLiteral_append_quote {q : Char} (hblank : Text.isBlank q = false) (hq : q ≠ ';')
    (h : (Text.trimLeft s).head? ≠ some ';') : endsLiteral (s ++ [q]) = false := by
  have happend : Text.trimLeft (s ++ [q]) = _ := List.dropWhile_append
  rw [endsLiteral, happend]
  change (List.dropWhile Text.isBlank s).head? ≠ _ at h
  cases hs : List.dropWhile Text.isBlank s with
  | nil => simpa [hblank] using hq
  | cons c rest =>
    rw [hs] at h
    simpa using h

/-- Nor does a comment begin in a literal at the end of the line. -/
theorem stripComment_literal {q : Char} (hq : isQuote q = true) (h : Enclosed q s) :
    stripComment (q :: s ++ [q]) = q :: s ++ [q] := by
  have hblank := isBlank_of_isQuote hq
  have hne : q ≠ ';' := by
    rintro rfl
    cases hq
  have hopen : beforeComment (some q) (s ++ [q]) = s ++ [q] := by
    induction s with
    | nil => rfl
    | cons c s ih =>
      have hstays : ¬ (c = q ∧ endsLiteral (s ++ [q]) = true) := by
        rintro ⟨rfl, hends⟩
        rw [endsLiteral_append_quote hblank hne (h s List.suffix_rfl)] at hends
        cases hends
      rw [List.cons_append, beforeComment, if_neg hstays,
        ih fun rest hrest => h rest (hrest.trans (List.suffix_cons c s))]
  rw [List.cons_append, stripComment, beforeComment, if_neg hne, if_pos hq, hopen]

theorem splitLabels_append (name : Text) (h : ∀ c ∈ w, Listing.isWordChar c = true)
    (t : Text) : splitLabels name (w ++ t) = splitLabels (w.reverse ++ name) t := by
  induction w generalizing name with
  | nil => rfl
  | cons c w ih =>
    obtain ⟨hc, hcolon, -⟩ := Listing.not_delimiter_of_isWordChar (h c List.mem_cons_self)
    rw [List.cons_append, splitLabels, if_neg hcolon, hc, if_neg (by decide),
      ih _ fun d hd => h d (List.mem_cons_of_mem c hd), List.reverse_cons, List.append_assoc]
    rfl

/-- Nothing is cut off in front of a word without a colon behind it. -/
theorem splitLabels_word (h : Listing.Word w) (ht : t = [] ∨ ∃ s, t = ' ' :: s) :
    splitLabels [] (w ++ t) = ([], w ++ t) := by
  rw [splitLabels_append [] h.2, List.append_nil]
  obtain rfl | ⟨s, rfl⟩ := ht
  · rw [splitLabels, List.reverse_reverse, List.append_nil]
  · rw [splitLabels, if_neg (by decide), if_pos Text.isBlank_space, if_neg (by simpa using h.1),
      List.reverse_reverse]

theorem splitLabels_label (h : Listing.Word label) (t : Text) :
    splitLabels [] (label ++ ": ".toList ++ t) =
      (label :: (splitLabels [] t).1, (splitLabels [] t).2) := by
  rw [List.append_assoc, splitLabels_append [] h.2, List.append_nil]
  change splitLabels label.reverse (':' :: ' ' :: t) = _
  rw [splitLabels, if_pos rfl, splitLabels, if_neg (by decide), if_pos Text.isBlank_space,
    if_pos rfl, List.reverse_reverse]

end SourceLine

/-! ## Operands -/

namespace Listing

/-- The text of the operands in a line of a listing. -/
def operandText (operands : List Operand) : Text :=
  [' '].intercalate (operands.map Operand.render)

@[simp] theorem operandText_singleton (o : Operand) : operandText [o] = o.render :=
  List.intercalate_singleton

@[simp] theorem operandText_cons_cons (o o' : Operand) (operands : List Operand) :
    operandText (o :: o' :: operands) = o.render ++ ' ' :: operandText (o' :: operands) := by
  rw [operandText, List.map_cons, List.map_cons, List.intercalate_cons_cons, List.append_assoc]
  rfl

end Listing

variable {o : Operand} {operands : List Operand} {e : Entry}

namespace Operand

/-- A plain operand is shown as a word, or as a literal without inner quotes. -/
theorem Plain.word_or_literal (h : o.Plain) :
    ((∀ b, o ≠ .string b) ∧ Listing.Word o.render) ∨
      ∃ s, o.render = '"' :: s ++ ['"'] ∧ '"' ∉ s ∧ '\n' ∉ s := by
  cases o with
  | string b =>
    have hb : b.Plain := h
    exact .inr ⟨b.ascii, render_string hb, fun hc => (hb.ne_of_mem_ascii hc).1 rfl,
      fun hc => (hb.ne_of_mem_ascii hc).2 rfl⟩
  | exitCode | register | integer => exact .inl ⟨nofun, Listing.word_render nofun⟩

theorem Plain.solid_render (h : o.Plain) : Text.Solid o.render := by
  obtain ⟨-, hword⟩ | ⟨s, hs, -, -⟩ := h.word_or_literal
  · exact hword.isWord.solid
  · rw [hs]
    exact ⟨⟨'"', _, rfl, rfl⟩, ⟨_, '"', rfl, rfl⟩⟩

theorem Plain.newline_not_mem_render (h : o.Plain) : '\n' ∉ o.render := by
  obtain ⟨-, hword⟩ | ⟨s, hs, -, hne⟩ := h.word_or_literal
  · exact hword.newline_not_mem
  · rw [hs]
    simpa using hne

end Operand

/-- Only the last operand of an instruction can be a string. -/
theorem Entry.WellFormed.cases (h : e.WellFormed) :
    (.string ∉ e.opcode.layout.kinds ∧ ∀ o ∈ e.operands, ∀ b, o ≠ .string b) ∨
    (e.opcode.layout = .string ∧ ∃ b, e.operands = [.string b]) ∨
    (e.opcode.layout = .registerString ∧ ∃ r b, e.operands = [.register r, .string b]) := by
  unfold WellFormed at h
  by_cases hstring : .string ∈ e.opcode.layout.kinds
  · refine .inr ?_
    generalize e.opcode.layout = layout at h hstring
    cases layout with
    | string =>
      obtain ⟨_, _, ho, hnil, hoperands⟩ := List.forall₂_cons_left_iff.1 h
      cases hnil
      cases ho
      exact .inl ⟨rfl, _, hoperands⟩
    | registerString =>
      obtain ⟨_, _, hr, hrest, hoperands⟩ := List.forall₂_cons_left_iff.1 h
      obtain ⟨_, _, ho, hnil, rfl⟩ := List.forall₂_cons_left_iff.1 hrest
      cases hnil
      cases hr
      cases ho
      exact .inr ⟨rfl, _, _, hoperands⟩
    | _ => exact absurd hstring (by decide)
  · refine .inl ⟨hstring, ?_⟩
    rintro o ho b rfl
    obtain ⟨kind, hkind, hkind'⟩ := exists_of_forall₂ h.flip ho
    cases hkind'
    exact hstring hkind

namespace Argument

/-- A register and a literal, whose words are counted but not used. -/
theorem split_registerString {r t : Text} (hr : Text.IsWord r) (ht : Text.Solid t) :
    split .registerString (r ++ ' ' :: t) = .ok [(.register, r), (.string, t)] := by
  obtain ⟨w, ws, hwords⟩ := List.exists_cons_of_ne_nil ht.words_ne_nil
  have hsplit : Text.words (r ++ ' ' :: t) = r :: w :: ws := by
    rw [Text.words_append_cons Text.isBlank_space, Text.words_eq_singleton hr.1 hr.2, hwords]
    rfl
  unfold split
  rw [hsplit]
  change Except.ok [(OperandKind.register, _), (.string, Text.trim (List.drop _ _))] = _
  rw [List.drop_left, ht.trim_cons Text.isBlank_space]

/-- The text of an instruction's operands is split into them. -/
theorem split_operandText (h : e.WellFormed) (hplain : ∀ o ∈ e.operands, o.Plain) :
    split e.opcode.layout (Listing.operandText e.operands) =
      .ok (e.opcode.layout.kinds.zip (e.operands.map Operand.render)) := by
  obtain ⟨hkinds, hwords⟩ | ⟨hlayout, b, hoperands⟩ | ⟨hlayout, r, b, hoperands⟩ := h.cases
  · have htext : Text.words (Listing.operandText e.operands) = e.operands.map Operand.render := by
      refine Text.words_intercalate fun t ht => ?_
      obtain ⟨o, ho, rfl⟩ := List.mem_map.1 ht
      exact (Listing.word_render (hwords o ho)).isWord
    have hlength : (e.operands.map Operand.render).length = e.opcode.layout.kinds.length := by
      rw [List.length_map]
      exact h.length_eq.symm
    generalize e.opcode.layout = layout at hkinds hlength
    cases layout with
    | string | registerString => exact absurd (by decide) hkinds
    | _ =>
      unfold split
      rw [htext]
      exact if_pos hlength
  · rw [hlayout, hoperands, Listing.operandText_singleton]
    rfl
  · have hregister : Text.IsWord (Operand.register r).render :=
      (Listing.word_render (o := .register r) nofun).isWord
    have hstring : Text.Solid (Operand.string b).render :=
      (hplain (.string b) (by simp [hoperands])).solid_render
    rw [hlayout, hoperands, Listing.operandText_cons_cons, Listing.operandText_singleton]
    exact split_registerString hregister hstring

/-- The text of an instruction's operands is read as the operands. -/
theorem readAll_operandText (h : e.WellFormed) (hplain : ∀ o ∈ e.operands, o.Plain) :
    readAll e.opcode.layout (Listing.operandText e.operands) =
      (e.operands.map .operand, none) := by
  refine readAll_eq_none.2 ⟨_, split_operandText h hplain, ?_⟩
  unfold Entry.WellFormed at h
  generalize e.opcode.layout.kinds = kinds at h
  generalize e.operands = operands at h hplain
  induction h with
  | nil => exact .nil
  | cons ho _ ih =>
    refine .cons (ho.reads (hplain _ List.mem_cons_self)) ?_
    exact ih fun o ho => hplain o (List.mem_cons_of_mem _ ho)

end Argument

/-! ## Lines -/

namespace Entry

/-- No comment begins in the text of an instruction's operands. -/
theorem stripComment_operandText (h : e.WellFormed) (hplain : ∀ o ∈ e.operands, o.Plain) :
    SourceLine.stripComment (Listing.operandText e.operands) =
      Listing.operandText e.operands := by
  have hliteral {b : Bytes} (hb : .string b ∈ e.operands) :
      SourceLine.stripComment (Operand.string b).render = (Operand.string b).render := by
    obtain ⟨hne, -⟩ | ⟨s, hs, hquote, -⟩ := (hplain _ hb).word_or_literal
    · exact absurd rfl (hne b)
    · rw [hs]
      exact SourceLine.stripComment_literal rfl (SourceLine.enclosed_of_not_mem hquote)
  obtain ⟨-, hwords⟩ | ⟨-, b, hoperands⟩ | ⟨-, r, b, hoperands⟩ := h.cases
  · refine SourceLine.Clean.stripComment_eq fun c hc => ?_
    obtain hc | ⟨t, ht, hc⟩ := Text.mem_intercalate hc
    · exact SourceLine.clean_space c hc
    · obtain ⟨o, ho, rfl⟩ := List.mem_map.1 ht
      exact SourceLine.clean_of_word (Listing.word_render (hwords o ho)) c hc
  · rw [hoperands, Listing.operandText_singleton]
    exact hliteral (by simp [hoperands])
  · have hclean : SourceLine.Clean (Operand.register r).render :=
      SourceLine.clean_of_word (Listing.word_render nofun)
    rw [hoperands, Listing.operandText_cons_cons, Listing.operandText_singleton,
      SourceLine.stripComment_append hclean, SourceLine.stripComment_space,
      hliteral (by simp [hoperands])]

theorem solid_operandText (hne : e.operands ≠ []) (hplain : ∀ o ∈ e.operands, o.Plain) :
    Text.Solid (Listing.operandText e.operands) := by
  refine Text.solid_intercalate (by simpa using hne) fun t ht => ?_
  obtain ⟨o, ho, rfl⟩ := List.mem_map.1 ht
  exact (hplain o ho).solid_render

/-- What stands behind the mnemonic: the operands, and a blank if there are any. -/
theorem exists_behind_mnemonic (h : e.WellFormed) (hplain : ∀ o ∈ e.operands, o.Plain) :
    ∃ t, [' '].intercalate (e.opcode.mnemonic :: e.operands.map Operand.render) =
        e.opcode.mnemonic ++ t ∧
      (t = [] ∨ ∃ s, t = ' ' :: s) ∧ Text.trim t = Listing.operandText e.operands ∧
      SourceLine.stripComment t = t := by
  cases hoperands : e.operands with
  | nil => exact ⟨[], by simp, .inl rfl, rfl, rfl⟩
  | cons o os =>
    have hsolid := solid_operandText (by rw [hoperands]; exact List.cons_ne_nil o os) hplain
    have hstrip := stripComment_operandText h hplain
    rw [hoperands] at hsolid hstrip
    refine ⟨' ' :: Listing.operandText (o :: os), ?_, .inr ⟨_, rfl⟩,
      hsolid.trim_cons Text.isBlank_space, ?_⟩
    · rw [List.map_cons, List.intercalate_cons_cons, List.append_assoc]
      rfl
    · rw [SourceLine.stripComment_space, hstrip]

theorem solid_render (hplain : ∀ o ∈ e.operands, o.Plain) : Text.Solid e.render := by
  refine (Listing.word_padded e.offset).isWord.solid.append ?_ _
  refine Text.solid_intercalate (List.cons_ne_nil _ _) fun t ht => ?_
  rcases List.mem_cons.1 ht with rfl | ht
  · exact (Listing.word_mnemonic e.opcode).isWord.solid
  · obtain ⟨o, ho, rfl⟩ := List.mem_map.1 ht
    exact (hplain o ho).solid_render

theorem newline_not_mem_render (hplain : ∀ o ∈ e.operands, o.Plain) : '\n' ∉ e.render := by
  intro hc
  rw [render, List.mem_append, List.mem_append] at hc
  obtain (hc | hc) | hc := hc
  · exact (Listing.word_padded e.offset).newline_not_mem hc
  · exact absurd hc (by decide)
  · obtain hc | ⟨t, ht, hc⟩ := Text.mem_intercalate hc
    · exact absurd hc (by decide)
    · rcases List.mem_cons.1 ht with rfl | ht
      · exact (Listing.word_mnemonic e.opcode).newline_not_mem hc
      · obtain ⟨o, ho, rfl⟩ := List.mem_map.1 ht
        exact (hplain o ho).newline_not_mem_render hc

/-- A line of a listing has one label, its offset, and the instruction behind it. -/
theorem parse_render (h : e.WellFormed) (hplain : ∀ o ∈ e.operands, o.Plain) :
    SourceLine.parse e.render =
      ⟨[Decimal.padded e.offset], some (e.opcode.mnemonic, Listing.operandText e.operands)⟩ := by
  obtain ⟨t, hbody, ht, htrim, hstrip⟩ := exists_behind_mnemonic h hplain
  have hline : e.render = Decimal.padded e.offset ++ ": ".toList ++ (e.opcode.mnemonic ++ t) :=
    congrArg _ hbody
  have hpadded := Listing.word_padded e.offset
  have hmnemonic := Listing.word_mnemonic e.opcode
  have hcomment : SourceLine.stripComment e.render = e.render := by
    have hcolon : SourceLine.Clean [':'] := by
      intro c hc
      obtain rfl := List.mem_singleton.1 hc
      decide
    have hclean : SourceLine.Clean (Decimal.padded e.offset ++ ": ".toList ++ e.opcode.mnemonic) :=
      ((SourceLine.clean_of_word hpadded).append
        (hcolon.append SourceLine.clean_space)).append (SourceLine.clean_of_word hmnemonic)
    rw [hline, ← List.append_assoc, SourceLine.stripComment_append hclean, hstrip]
  have hinstruction : SourceLine.splitInstruction (e.opcode.mnemonic ++ t) =
      some (e.opcode.mnemonic, Listing.operandText e.operands) := by
    have hkeep : ∀ c ∈ e.opcode.mnemonic, (!Text.isBlank c) = true := fun c hc => by
      simp [hmnemonic.isWord.2 c hc]
    rw [SourceLine.splitInstruction_eq_some, List.takeWhile_append_of_pos hkeep,
      List.dropWhile_append_of_pos hkeep]
    refine ⟨hmnemonic.1, ?_, ?_⟩
    · obtain rfl | ⟨s, rfl⟩ := ht <;> simp [Text.isBlank_space]
    · rw [← htrim]
      obtain rfl | ⟨s, rfl⟩ := ht <;> simp [Text.isBlank_space]
  -- There is nothing to trim and no comment, so the label is cut off the whole line.
  have hsolid := solid_render hplain
  rw [SourceLine.parse_eq_ofText, hsolid.trim_eq, hcomment, hsolid.trim_eq, hline,
    SourceLine.ofText, SourceLine.splitLabels_label hpadded,
    SourceLine.splitLabels_word hmnemonic ht]
  exact congrArg _ hinstruction

end Entry

end StackMachine
