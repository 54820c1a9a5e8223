-- SUMMARY: A comment behind a line changes nothing, unless a quote in a label has opened a literal.
import StackMachine.Proofs.Increments
import StackMachine.Proofs.Renaming
import StackMachine.Proofs.TextEncoding

/-!
# Trailing comments

The scan that looks for the comment of a line sees a literal behind any quote, also
behind one in the name of a label, where no literal can stand. Whether a comment can
be put behind a line is then a matter of the quotes in it: the comment is one if no
literal is open at the end of the line. If one is open, what should be a comment is
read as labels, as an instruction or as operands, and never leaves the line as it was.
-/

namespace StackMachine

theorem Text.Parted.append_cons {s : Text} {c : Char} (h : Parted s) (hc : isBlank c = true)
    (t : Text) : Parted (s ++ c :: t) := by
  obtain rfl | ⟨b, s, hb, rfl⟩ := h
  · exact .inr ⟨c, t, hc, rfl⟩
  · exact .inr ⟨b, s ++ c :: t, hb, rfl⟩

namespace SourceLine

open Text (Blank)

variable {s t u line : Text} {quote : Option Char} {q : Char} {labels : List Text}

/-! ## Literals that are still open -/

/-- The quote of the literal that is open at the end of a text, where `quote` is the
    one that is open in front of it. There is none behind a comment. -/
def unclosed : (quote : Option Char) → Text → Option Char
  | quote, [] => quote
  | none, c :: t =>
    if c = ';' then none else unclosed (if isQuote c then some c else none) t
  | some q, c :: t => unclosed (if c = q ∧ endsLiteral t then none else some q) t

theorem isQuote_of_unclosed (hquote : ∀ q, quote = some q → isQuote q = true)
    (h : unclosed quote t = some q) : isQuote q = true := by
  induction t generalizing quote with
  | nil =>
    apply hquote
    simpa [unclosed] using h
  | cons c t ih =>
    cases quote with
    | none =>
      rw [unclosed] at h
      split at h
      · cases h
      · refine ih (fun p hp => ?_) h
        split at hp
        · rename_i hc
          exact Option.some.inj hp ▸ hc
        · cases hp
    | some p =>
      rw [unclosed] at h
      refine ih (fun p' hp' => ?_) h
      split at hp'
      · cases hp'
      · exact hquote p' hp'

/-- No comment begins in front of a place where a literal is open. -/
theorem beforeComment_of_unclosed (h : unclosed quote t = some q) :
    beforeComment quote t = t := by
  induction t generalizing quote with
  | nil => cases quote <;> rfl
  | cons c t ih =>
    cases quote with
    | none =>
      rw [unclosed] at h
      split at h
      · cases h
      · rename_i hc
        rw [beforeComment, if_neg hc, ih h]
    | some p =>
      rw [unclosed] at h
      rw [beforeComment, ih h]

theorem unclosed_append (h : Clean s) (t : Text) : unclosed none (s ++ t) = unclosed none t := by
  induction s with
  | nil => rfl
  | cons c s ih =>
    obtain ⟨hc, hquote⟩ := h c List.mem_cons_self
    rw [List.cons_append, unclosed, if_neg hc, hquote, if_neg (by decide)]
    exact ih fun d hd => h d (List.mem_cons_of_mem c hd)

/-- Where nothing but white space and a comment follows, no literal is opened. -/
theorem unclosed_of_endsLiteral (h : endsLiteral t = true) : unclosed none t = none := by
  obtain ⟨blanks, hsplit, hblanks⟩ := Text.exists_trimLeft t
  rw [hsplit, unclosed_append (clean_of_blank hblanks)]
  unfold endsLiteral at h
  split at h
  · rename_i hnil
    rw [hnil]
    rfl
  · rename_i c rest hcons
    rw [hcons, unclosed, if_pos (of_decide_eq_true h)]

/-- The quote at the end of a literal closes it. -/
theorem unclosed_literal (h : endsLiteral u = true) (s : Text) :
    unclosed (some q) (s ++ q :: u) = none := by
  induction s with
  | nil => rw [List.nil_append, unclosed, if_pos ⟨rfl, h⟩, unclosed_of_endsLiteral h]
  | cons c s ih =>
    rw [List.cons_append, unclosed]
    split
    · rename_i hclosed
      exact unclosed_of_endsLiteral hclosed.2
    · exact ih

/-! ## Comments behind a line -/

/-- A comment, and the white space in front of it, leave white space at most. -/
theorem blank_beforeComment (h : endsLiteral u = true) : Blank (beforeComment none u) := by
  obtain ⟨blanks, hsplit, hblanks⟩ := Text.exists_trimLeft u
  have hstrip := stripComment_append (clean_of_blank hblanks) (Text.trimLeft u)
  have hnil : stripComment (Text.trimLeft u) = [] := by
    unfold endsLiteral at h
    split at h
    · rename_i hnil
      rw [hnil]
      rfl
    · rename_i c rest hcons
      rw [hcons, stripComment, beforeComment, if_pos (of_decide_eq_true h)]
  rw [← hsplit, hnil, List.append_nil] at hstrip
  rw [← stripComment, hstrip]
  exact hblanks

/-- Behind a text that leaves no literal open a comment is cut off, but for white
    space in front of it. -/
theorem beforeComment_append (hu : endsLiteral u = true) (h : unclosed quote t = none) :
    ∃ blanks, Blank blanks ∧ beforeComment quote (t ++ u) = beforeComment quote t ++ blanks := by
  induction t generalizing quote with
  | nil =>
    obtain rfl : quote = none := h
    exact ⟨_, blank_beforeComment hu, rfl⟩
  | cons c t ih =>
    cases quote with
    | none =>
      rw [List.cons_append, beforeComment, beforeComment]
      rw [unclosed] at h
      split at h
      · rename_i hc
        exact ⟨[], fun _ hd => absurd hd List.not_mem_nil,
          by rw [if_pos hc, if_pos hc, List.append_nil]⟩
      · rename_i hc
        obtain ⟨blanks, hblanks, heq⟩ := ih h
        exact ⟨blanks, hblanks, by rw [if_neg hc, if_neg hc, heq, List.cons_append]⟩
    | some p =>
      rw [unclosed] at h
      obtain ⟨blanks, hblanks, heq⟩ := ih h
      refine ⟨blanks, hblanks, ?_⟩
      rw [List.cons_append, beforeComment, beforeComment, endsLiteral_append hu, heq,
        List.cons_append]

/-- Behind a text that leaves a literal open it belongs to the literal. -/
theorem beforeComment_append_of_unclosed (hu : endsLiteral u = true)
    (h : unclosed quote t = some q) :
    beforeComment quote (t ++ u) = t ++ beforeComment (some q) u := by
  induction t generalizing quote with
  | nil =>
    obtain rfl : quote = some q := h
    rfl
  | cons c t ih =>
    cases quote with
    | none =>
      rw [unclosed] at h
      split at h
      · cases h
      · rename_i hc
        rw [List.cons_append, beforeComment, if_neg hc, ih h, List.cons_append]
    | some p =>
      rw [unclosed] at h
      rw [List.cons_append, beforeComment, endsLiteral_append hu, ih h, List.cons_append]

/-- A comment behind a line that leaves no literal open changes nothing. -/
theorem parse_append (hu : endsLiteral u = true) (h : unclosed none line = none) :
    parse (line ++ u) = parse line := by
  obtain ⟨blanks, hblanks, heq⟩ := beforeComment_append hu h
  rw [parse_eq, parse_eq, stripComment, heq, ofText_append_blank hblanks, ← stripComment]

theorem endsLiteral_comment (c : Text) : endsLiteral (' ' :: ';' :: c) = true :=
  rfl

/-- A line that leaves a literal open has no comment, and what is put behind it as a
    comment stays, up to a comment in it. -/
theorem parse_of_unclosed (h : unclosed none line = some q) (c : Text) :
    parse line = ofText line ∧
      ∃ rest, parse (line ++ ' ' :: ';' :: c) = ofText (line ++ ' ' :: ';' :: rest) := by
  have hself := beforeComment_of_unclosed h
  have hquote : isQuote q = true := isQuote_of_unclosed (fun q hq => by cases hq) h
  have hspace : ' ' ≠ q := by
    rintro rfl
    cases hquote
  have hsemicolon : ';' ≠ q := by
    rintro rfl
    cases hquote
  refine ⟨by rw [parse_eq, stripComment, hself], beforeComment (some q) c, ?_⟩
  rw [parse_eq, stripComment, beforeComment_append_of_unclosed (endsLiteral_comment c) h,
    beforeComment, if_neg fun hc => hspace hc.1, beforeComment,
    if_neg fun hc => hsemicolon hc.1]

theorem Heads.isBlank (h : Heads labels t) (hnil : labels = []) : Blank t := by
  induction h with
  | nil => exact nofun
  | blank hc _ ih => exact List.forall_mem_cons.2 ⟨hc, ih hnil⟩
  | label _ _ _ => cases hnil

/-- A text that says nothing is white space. -/
theorem blank_of_ofText_eq (h : ofText t = ⟨[], none⟩) : Blank t := by
  obtain ⟨labels, front, body, rfl, hheads, rfl | ⟨w, rest, rfl, hw, hrest⟩⟩ := exists_heads t
  · rw [List.append_nil] at h ⊢
    rw [hheads.ofText_eq] at h
    exact hheads.isBlank (congrArg SourceLine.labels h)
  · rw [hheads.ofText_append hw hrest] at h
    cases h

end SourceLine

/-! ## Comments among the operands -/

namespace Argument

open SourceLine (QuoteFree isQuote)
open Text (Blank)

variable {layout : Layout} {t : Text} {arguments : List Argument}

theorem getLast?_of_forall₂ {α β : Type} {R : α → β → Prop} {xs : List α} {ys : List β} {x : α}
    (h : List.Forall₂ R xs ys) (hx : xs.getLast? = some x) :
    ∃ y, ys.getLast? = some y ∧ R x y := by
  have hreverse := List.rel_reverse h
  rw [List.getLast?_eq_head?_reverse] at hx ⊢
  obtain ⟨rest, hrest⟩ := List.head?_eq_some_iff.1 hx
  rw [hrest] at hreverse
  obtain ⟨y, _, hxy, -, hys⟩ := List.forall₂_cons_left_iff.1 hreverse
  exact ⟨y, by rw [hys]; rfl, hxy⟩

/-- The operands of a layout with a string end in a literal, which begins at the first
    quote. -/
theorem exists_literal_of_readAll (h : readAll layout (Text.trim t) = (arguments, none))
    (hstring : .string ∈ layout.kinds) :
    ∃ front q contents blanks, t = front ++ q :: (contents ++ q :: blanks) ∧ QuoteFree front ∧
      isQuote q = true ∧ Blank blanks ∧
      arguments.getLast? = some (.operand (.string (Utf8.encode contents))) := by
  obtain ⟨parts, hsplit, hreads⟩ := readAll_eq_none.1 h
  obtain ⟨-, htokens⟩ := tokens_of_split hsplit hreads
  have hkinds := map_fst_of_split hsplit
  rw [tokens, if_pos hstring] at htokens
  have hkind : (parts.map Prod.fst).getLast? = some .string := by
    rw [hkinds]
    obtain rfl | rfl := cases_of_string hstring
    · rfl
    · rfl
  rw [List.getLast?_map] at hkind
  obtain ⟨⟨_, w⟩, hpart, rfl⟩ := Option.map_eq_some_iff.1 hkind
  obtain ⟨argument, hargument, hread⟩ := getLast?_of_forall₂ hreads hpart
  rw [← List.dropLast_append_getLast? _ hpart, List.map_append] at htokens
  obtain ⟨-, -, blanks, hblanks, ht⟩ := quoted_of_tokens (isLiteral_of_reads hread) htokens
  cases hread with
  | @string q contents hq _ =>
    refine ⟨opening t, q, contents, blanks, ?_, quoteFree_opening t, hq, hblanks, hargument⟩
    simpa using ht

/-- With what should be a comment behind them, operands are not read as they were. -/
theorem readAll_append_ne (h : readAll layout (Text.trim t) = (arguments, none)) (rest : Text) :
    readAll layout (Text.trim (t ++ ' ' :: ';' :: rest)) ≠ (arguments, none) := by
  intro h'
  by_cases hstring : .string ∈ layout.kinds
  · obtain ⟨front, q, contents, blanks, rfl, hfront, hq, hblanks, hlast⟩ :=
      exists_literal_of_readAll h hstring
    obtain ⟨front', q', contents', blanks', hsplit, hfront', hq', hblanks', hlast'⟩ :=
      exists_literal_of_readAll h' hstring
    have hencode : Utf8.encode contents = Utf8.encode contents' := by
      rw [hlast] at hlast'
      injection hlast' with hoperand
      injection hoperand with hstring
      injection hstring
    obtain rfl : contents = contents' := by
      have hdecode := Utf8.decode?_encode contents
      rw [hencode, Utf8.decode?_encode] at hdecode
      exact (Except.ok.inj hdecode).symm
    -- The text in front of the first quote is the same, so the literals begin alike.
    obtain rfl : front = front' := by
      have hopening := congrArg opening hsplit
      rw [List.append_assoc, opening_append hfront, opening_append hfront'] at hopening
      simpa [opening, hq, hq'] using hopening
    rw [List.append_assoc, List.append_cancel_left_eq, List.cons_append, List.cons.injEq,
      List.append_assoc, List.append_cancel_left_eq, List.cons_append, List.cons.injEq] at hsplit
    have hmem : ';' ∈ blanks' := by
      rw [← hsplit.2.2]
      simp
    exact absurd rfl (SourceLine.ne_semicolon_of_isBlank (hblanks' _ hmem))
  · have hlength {s : Text} (hs : readAll layout (Text.trim s) = (arguments, none)) :
        (Text.words s).length = layout.kinds.length := by
      obtain ⟨parts, hsplit, -⟩ := readAll_eq_none.1 hs
      rw [← Text.words_trim, ← map_snd_of_split hsplit hstring, ← map_fst_of_split hsplit,
        List.length_map, List.length_map]
    have hwords := hlength h'
    rw [Text.words_append_cons rfl, List.length_append, hlength h] at hwords
    obtain ⟨w, hw, -⟩ : ∃ w ∈ Text.words (';' :: rest), ';' ∈ w := by
      obtain hblank | hword := Text.mem_words (t := ';' :: rest) List.mem_cons_self
      · cases hblank
      · exact hword
    have hpos := List.length_pos_of_mem hw
    omega

end Argument

/-- No operand has a quote but a literal, and a reference to a label whose name has one. -/
theorem Argument.Reads.quoteFree {kind : OperandKind} {t : Text} {argument : Argument}
    (h : Reads kind t argument) (hkind : kind ≠ .string)
    (hname : ∀ name, argument = .reference name → SourceLine.QuoteFree name) :
    SourceLine.QuoteFree t := by
  cases h with
  | exitCode number | integer number _ | address _ number _ =>
    intro c hc
    cases hquote : SourceLine.isQuote c with
    | false => rfl
    | true =>
      have hdigit := isDigit_of_parse? number c hc
      simp only [SourceLine.isQuote, Bool.or_eq_true, decide_eq_true_eq] at hquote
      obtain rfl | rfl := hquote
      · revert hdigit
        decide
      · revert hdigit
        decide
  | register named => exact (Reads.register named).quoteFree_of_register
  | reference named => exact (Reads.reference named).quoteFree_of_reference (hname _ rfl)
  | string _ _ => exact absurd rfl hkind

namespace Assembly

open SourceLine (QuoteFree unclosed)

variable {a b : Assembly} {line : Text} {q : Char}

/-! ## Accepted lines -/

theorem length_labels_of_forM_define {names : List Text} (h : names.forM define a = .ok () b) :
    b.labels.length = a.labels.length + names.length := by
  induction names generalizing a with
  | nil =>
    cases h
    rfl
  | cons name names ih =>
    obtain ⟨mid, hdefine, hrest⟩ := forM_cons_eq_ok.1 h
    obtain ⟨-, -, rfl⟩ := define_eq_ok.1 hdefine
    rw [ih hrest, List.length_cons, List.length_cons]
    omega

/-- An accepted line adds its labels and the statement of its instruction. -/
theorem adds_of_feed (h : feed line a = .ok () b) :
    b.labels.length = a.labels.length + (SourceLine.parse line).labels.length ∧
      match (SourceLine.parse line).instruction with
      | none => b.statements = a.statements
      | some (mnemonic, operands) =>
        ∃ s, a.Carries line mnemonic operands s ∧ b.statements = a.statements.push s := by
  obtain ⟨mid, hlabels, hinstruction⟩ := feed_eq_ok.1 h
  obtain ⟨-, hstatements, hsize, -⟩ := forM_define_eq_ok hlabels
  have hlength := length_labels_of_forM_define hlabels
  cases hi : (SourceLine.parse line).instruction with
  | none =>
    rw [hi] at hinstruction
    subst hinstruction
    exact ⟨hlength, hstatements⟩
  | some i =>
    rw [hi] at hinstruction
    obtain ⟨op, arguments, hop, hread, hemit⟩ := feedInstruction_eq_ok.1 hinstruction
    cases hemit
    exact ⟨hlength, _, ⟨hi, hop, hread, hsize⟩, congrArg (Array.push · _) hstatements⟩

/-- The label that an argument refers to is the one that the line says. -/
theorem Carries.reference?_of_mem {mnemonic operands name : Text} {s : Statement}
    (h : a.Carries line mnemonic operands s) (hname : .reference name ∈ s.arguments) :
    ∃ before, (SourceLine.parse line).reference? = some (name, before) := by
  have hshape := h.shape
  generalize s.arguments = arguments at hname hshape
  cases hshape with
  | plain operands _ =>
    obtain ⟨_, -, hoperand⟩ := List.mem_map.1 hname
    cases hoperand
  | referring registers hsome =>
    obtain hregister | hreference := List.mem_append.1 hname
    · obtain ⟨_, -, hoperand⟩ := List.mem_map.1 hregister
      cases hoperand
    · cases List.mem_singleton.1 hreference
      exact ⟨_, hsome⟩

/-- Operands without a string have no quote, unless one refers to a label that has. -/
theorem Carries.quoteFree_operands {mnemonic operands : Text} {s : Statement}
    (h : a.Carries line mnemonic operands s) (hstring : .string ∉ s.opcode.layout.kinds)
    (hname : ∀ name before, (SourceLine.parse line).reference? = some (name, before) →
      QuoteFree name) : QuoteFree operands := by
  obtain ⟨parts, hparts, hreads⟩ := Argument.readAll_eq_none.1 h.arguments
  intro c hc
  obtain hblank | ⟨u, hu, hc⟩ := Text.mem_words hc
  · exact SourceLine.isQuote_of_isBlank hblank
  · rw [← Argument.map_snd_of_split hparts hstring] at hu
    obtain ⟨part, hpart, rfl⟩ := List.mem_map.1 hu
    obtain ⟨argument, hargument, hread⟩ := exists_of_forall₂ hreads hpart
    refine hread.quoteFree ?_ ?_ c hc
    · intro hkind
      refine hstring ?_
      rw [← Argument.map_fst_of_split hparts, ← hkind]
      exact List.mem_map_of_mem hpart
    · rintro name rfl
      obtain ⟨before, hreference⟩ := h.reference?_of_mem hargument
      exact hname name before hreference

/-- A line leaves no literal open if none of the labels that it defines or refers to
    has a quote in its name. -/
theorem unclosed_of_quoteFree (h : feed line a = .ok () b)
    (hlabels : ∀ label ∈ (SourceLine.parse line).labels, QuoteFree label)
    (hname : ∀ name before, (SourceLine.parse line).reference? = some (name, before) →
      QuoteFree name) : unclosed none line = none := by
  cases hopen : unclosed none line with
  | none => rfl
  | some q =>
    exfalso
    have hself : SourceLine.stripComment line = line := SourceLine.beforeComment_of_unclosed hopen
    have hclean {s t : Text} (hsplit : line = s ++ t) (hs : QuoteFree s) : SourceLine.Clean s :=
      SourceLine.clean_of_stripComment (hself.trans hsplit) hs
    have hquoted : ¬ QuoteFree line := by
      intro hfree
      have hclosed := SourceLine.unclosed_append
        (hclean (List.append_nil line).symm hfree) []
      rw [List.append_nil, hopen] at hclosed
      cases hclosed
    obtain ⟨labels, front, body, hsplit, hheads, hbody⟩ := SourceLine.exists_heads line
    have hparse : SourceLine.parse line = SourceLine.ofText (front ++ body) := by
      rw [SourceLine.parse_eq, hself, ← hsplit]
    obtain rfl | ⟨w, rest, rfl, hw, hrest⟩ := hbody
    · rw [List.append_nil] at hsplit hparse
      rw [hparse, hheads.ofText_eq] at hlabels
      exact hquoted (hsplit ▸ hheads.quoteFree hlabels)
    · rw [hheads.ofText_append hw hrest] at hparse
      have hadds := (adds_of_feed h).2
      rw [hparse] at hadds hlabels
      obtain ⟨s, hcarries, -⟩ := hadds
      have hfront : QuoteFree (front ++ w) := (hheads.quoteFree hlabels).append
        (Opcode.quoteFree_of_ofMnemonic? hcarries.opcode)
      rw [← List.append_assoc] at hsplit
      by_cases hstring : .string ∈ s.opcode.layout.kinds
      · obtain ⟨before, p, contents, blanks, rfl, hbefore, hp, hblanks, -⟩ :=
          Argument.exists_literal_of_readAll hcarries.arguments hstring
        rw [← List.append_assoc] at hsplit
        have hne : p ≠ ';' := by
          rintro rfl
          cases hp
        have hclosed := SourceLine.unclosed_append (hclean hsplit (hfront.append hbefore))
          (p :: (contents ++ p :: blanks))
        rw [← hsplit, hopen, unclosed, if_neg hne, if_pos hp,
          SourceLine.unclosed_literal (SourceLine.endsLiteral_of_blank hblanks)] at hclosed
        cases hclosed
      · have hoperands := SourceLine.quoteFree_trim.1 (hcarries.quoteFree_operands hstring hname)
        exact hquoted (hsplit ▸ hfront.append hoperands)

/-! ## Comments behind an accepted line -/

/-- What should be a comment behind a line that leaves a literal open is another label,
    an instruction, or among the operands. -/
theorem feed_append_ne (h : feed line a = .ok () b) (hopen : unclosed none line = some q)
    (c : Text) : feed (line ++ ' ' :: ';' :: c) a ≠ .ok () b := by
  intro h'
  obtain ⟨hparse, rest, hparse'⟩ := SourceLine.parse_of_unclosed hopen c
  obtain ⟨hlength, hadds⟩ := adds_of_feed h
  obtain ⟨hlength', hadds'⟩ := adds_of_feed h'
  obtain ⟨labels, front, body, hsplit, hheads, hbody⟩ := SourceLine.exists_heads line
  replace hparse := hparse.trans (congrArg SourceLine.ofText hsplit)
  obtain rfl | ⟨w, operands, rfl, hw, hrest⟩ := hbody
  · -- Behind labels only, the rest says something.
    have hspace : SourceLine.Heads labels (front ++ [' ']) :=
      hheads.append_blank (Text.blank_singleton rfl)
    have hbehind : line ++ ' ' :: ';' :: rest = front ++ [' '] ++ ';' :: rest := by
      rw [hsplit]
      simp
    rw [hbehind, hspace.ofText_append_eq] at hparse'
    rw [List.append_nil, hheads.ofText_eq] at hparse
    rw [hparse] at hlength hadds
    rw [hparse'] at hlength' hadds'
    dsimp only at hlength
    have hnone : (SourceLine.ofText (';' :: rest)).labels = [] := by
      rw [List.length_append] at hlength'
      exact List.eq_nil_of_length_eq_zero (by omega)
    cases hi : (SourceLine.ofText (';' :: rest)).instruction with
    | none =>
      have hblank := SourceLine.blank_of_ofText_eq (t := ';' :: rest)
        (by rw [← hnone, ← hi])
      exact absurd rfl (SourceLine.ne_semicolon_of_isBlank (hblank ';' List.mem_cons_self))
    | some i =>
      rw [hi] at hadds'
      obtain ⟨s, -, hstatements⟩ := hadds'
      have hsizes := congrArg Array.size hstatements
      rw [hadds, Array.size_push] at hsizes
      omega
  · have hparted : Text.Parted (operands ++ ' ' :: ';' :: rest) := hrest.append_cons rfl _
    have hbehind : line ++ ' ' :: ';' :: rest =
        front ++ (w ++ (operands ++ ' ' :: ';' :: rest)) := by
      rw [hsplit]
      simp
    rw [hbehind, hheads.ofText_append hw hparted] at hparse'
    rw [hheads.ofText_append hw hrest] at hparse
    rw [hparse] at hadds
    rw [hparse'] at hadds'
    obtain ⟨s, hcarries, hstatements⟩ := hadds
    obtain ⟨s', hcarries', hstatements'⟩ := hadds'
    obtain rfl : s = s' := (Array.push_eq_push.1 (hstatements.symm.trans hstatements')).1
    exact Argument.readAll_append_ne hcarries.arguments rest hcarries'.arguments

/-- A comment behind an accepted line changes nothing if, and only if, the line leaves
    no literal open. None is open if no label that the line defines or refers to has a
    quote in its name. -/
theorem feed_comment_iff (h : feed line a = .ok () b) (c : Text) :
    (feed (line ++ ' ' :: ';' :: c) a = .ok () b ↔ unclosed none line = none) ∧
      ((∀ label ∈ (SourceLine.parse line).labels, QuoteFree label) →
        (∀ name before, (SourceLine.parse line).reference? = some (name, before) →
          QuoteFree name) →
        feed (line ++ ' ' :: ';' :: c) a = .ok () b) := by
  have hsame (hclosed : unclosed none line = none) :
      feed (line ++ ' ' :: ';' :: c) a = .ok () b := by
    rw [feed_congr (SourceLine.parse_append (SourceLine.endsLiteral_comment c) hclosed)]
    exact h
  refine ⟨⟨fun h' => ?_, hsame⟩, fun hlabels hname => hsame (unclosed_of_quoteFree h hlabels hname)⟩
  cases hopen : unclosed none line with
  | none => rfl
  | some q => exact absurd h' (feed_append_ne h hopen c)

/-- The literal may hold the quote that begins it, and a semicolon. -/
theorem feed_comment_iff_literal :
    let line := "PUSHSTR 'it's;'".toList
    let b : Assembly := empty.nextLine.push
      ⟨1, 0, .pushString, [.operand (.string (Utf8.encode "it's;".toList))]⟩
    feed line empty = .ok () b ∧ feed (line ++ ' ' :: ';' :: "don't".toList) empty = .ok () b := by
  intro line b
  have h : feed line empty = .ok () b := by rfl
  exact ⟨h, (feed_comment_iff h _).1.2 (by decide)⟩

/-- The quote in the label opens a literal, so the comment becomes an instruction. -/
theorem exists_comment_refused :
    feed "it's:".toList empty = .ok () ⟨1, #[], 0, [("it's".toList, 0)]⟩ ∧
      feed ("it's:".toList ++ ' ' :: ';' :: "c".toList) empty =
        .error ⟨1, .unknownInstruction ";c".toList⟩ ⟨1, #[], 0, [("it's".toList, 0)]⟩ :=
  ⟨rfl, rfl⟩

end Assembly

end StackMachine
