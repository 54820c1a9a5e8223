-- SUMMARY: Renaming the labels in a line renames them in what the line says.
import StackMachine.Proofs.Respelling

/-!
# Renaming labels

A label is renamed where a line defines it, which is in front of the instruction,
and where a line refers to it, which is the last operand. Everything else in the
line is kept, white space and comment too.
-/

namespace StackMachine

namespace SourceLine

open Text (Blank IsWord Detached Parted)

variable {ρ : Text → Text} {s t u w line : Text} {labels : List Text}

/-! ## Rewriting a line -/

/-- The text with other names for the labels in front. As in `splitLabels`, `name` is
    what has been read of a label, last character first. -/
def renameLabels (ρ : Text → Text) : (name : Text) → Text → Text
  | name, [] => name.reverse
  | name, c :: t =>
    if c = ':' then ρ name.reverse ++ ':' :: renameLabels ρ [] t
    else if Text.isBlank c then
      if name = [] then c :: renameLabels ρ [] t else name.reverse ++ c :: t
    else renameLabels ρ (c :: name) t

/-- The line with other names for the labels that it defines. -/
def relabel (ρ : Text → Text) (line : Text) : Text :=
  let code := stripComment line
  renameLabels ρ [] code ++ line.drop code.length

/-- The line with another name for the label that it refers to. -/
def redirect (ρ : Text → Text) (line : Text) : Text :=
  match (parse line).reference? with
  | none => line
  | some (name, _) => replaceLast line (name.length + 1) ('%' :: ρ name)

/-- The line with other names for all its labels. -/
def rename (ρ : Text → Text) (line : Text) : Text :=
  relabel ρ (redirect ρ line)

/-- The name can stand for a label anywhere. -/
structure PlainName (name : Text) : Prop where
  word : IsWord name
  colon : ':' ∉ name
  clean : Clean name

theorem PlainName.opens (h : PlainName w) : Opens w :=
  ⟨h.word, h.colon⟩

/-! ## Labels in front -/

theorem renameLabels_of_named {name : Text} (h : ∀ c ∈ t, Text.isBlank c = false ∧ c ≠ ':')
    (u : Text) : renameLabels ρ name (t ++ u) = renameLabels ρ (t.reverse ++ name) u := by
  induction t generalizing name with
  | nil => rfl
  | cons c t ih =>
    obtain ⟨hblank, hcolon⟩ := h c List.mem_cons_self
    rw [List.cons_append, renameLabels, if_neg hcolon, hblank, if_neg (by decide),
      ih fun d hd => h d (List.mem_cons_of_mem c hd), List.reverse_cons, List.append_assoc]
    rfl

theorem Opens.renameLabels_append (h : Opens w) (hu : Parted u) :
    renameLabels ρ [] (w ++ u) = w ++ u := by
  rw [renameLabels_of_named h.named, List.append_nil]
  obtain rfl | ⟨b, s, hb, rfl⟩ := hu
  · rw [renameLabels, List.reverse_reverse, List.append_nil]
  · have hne : w.reverse ≠ [] := by simpa using h.word.1
    rw [renameLabels, if_neg (ne_colon_of_isBlank hb), if_pos hb, if_neg hne, List.reverse_reverse]

/-- Renaming labels renames labels, and brings in no white space. -/
theorem Heads.exists_renamed (h : Heads labels t) (hρ : ∀ label ∈ labels, PlainName (ρ label))
    (ht : Clean t) :
    ∃ t', Heads (labels.map ρ) t' ∧ Clean t' ∧ (∀ c ∈ t', Text.isBlank c = true → c ∈ t) ∧
      ∀ u, renameLabels ρ [] (t ++ u) = t' ++ renameLabels ρ [] u := by
  induction h with
  | nil => exact ⟨[], .nil, nofun, nofun, fun u => rfl⟩
  | @blank labels c t hc _ ih =>
    obtain ⟨t', hheads, hclean, hblanks, hrename⟩ :=
      ih hρ fun d hd => ht d (List.mem_cons_of_mem c hd)
    refine ⟨c :: t', .blank hc hheads,
      List.forall_mem_cons.2 ⟨ht c List.mem_cons_self, hclean⟩, fun d hd hblank => ?_, fun u => ?_⟩
    · obtain rfl | hd := List.mem_cons.1 hd
      · exact List.mem_cons_self
      · exact List.mem_cons_of_mem c (hblanks d hd hblank)
    · rw [List.cons_append, renameLabels, if_neg (ne_colon_of_isBlank hc), if_pos hc, if_pos rfl,
        hrename]
      rfl
  | @label labels name t named _ ih =>
    have hname := hρ name List.mem_cons_self
    obtain ⟨t', hheads, hclean, hblanks, hrename⟩ :=
      ih (fun label hlabel => hρ label (List.mem_cons_of_mem name hlabel))
        fun d hd => ht d (List.mem_append_right name (List.mem_cons_of_mem ':' hd))
    refine ⟨ρ name ++ ':' :: t', .label hname.opens.named hheads, hname.clean.append ?_,
      fun d hd hblank => ?_, fun u => ?_⟩
    · exact List.forall_mem_cons.2 ⟨ht ':' (by simp), hclean⟩
    · obtain hd | hd := List.mem_append.1 hd
      · rw [hname.word.2 d hd] at hblank
        cases hblank
      · obtain rfl | hd := List.mem_cons.1 hd
        · cases hblank
        · exact List.mem_append_right name (List.mem_cons_of_mem ':' (hblanks d hd hblank))
    · rw [List.append_assoc, renameLabels_of_named named, List.append_nil, List.cons_append,
        renameLabels, if_pos rfl, hrename, List.reverse_reverse, List.append_assoc]
      rfl

theorem Heads.mem {c : Char} (h : Heads labels t) (hc : c ∈ t) :
    Text.isBlank c = true ∨ c = ':' ∨ ∃ label ∈ labels, c ∈ label := by
  induction h with
  | nil => cases hc
  | blank hblank _ ih =>
    obtain rfl | hc := List.mem_cons.1 hc
    · exact .inl hblank
    · exact ih hc
  | label _ _ ih =>
    obtain hc | hc := List.mem_append.1 hc
    · exact .inr (.inr ⟨_, List.mem_cons_self, hc⟩)
    · obtain rfl | hc := List.mem_cons.1 hc
      · exact .inr (.inl rfl)
      · obtain hblank | hcolon | ⟨label, hlabel, hc⟩ := ih hc
        · exact .inl hblank
        · exact .inr (.inl hcolon)
        · exact .inr (.inr ⟨label, List.mem_cons_of_mem _ hlabel, hc⟩)

theorem Heads.quoteFree (h : Heads labels t) (hlabels : ∀ label ∈ labels, QuoteFree label) :
    QuoteFree t := by
  intro c hc
  obtain hblank | rfl | ⟨label, hlabel, hc⟩ := h.mem hc
  · exact isQuote_of_isBlank hblank
  · rfl
  · exact hlabels label hlabel c hc

/-- In front of the first quote no semicolon is left. -/
theorem clean_of_stripComment (h : stripComment line = s ++ t) (hs : QuoteFree s) : Clean s := by
  unfold stripComment at h
  induction s generalizing line with
  | nil => exact nofun
  | cons c s ih =>
    cases line with
    | nil => cases h
    | cons d line =>
      rw [beforeComment] at h
      split at h
      · cases h
      · rename_i hne
        obtain ⟨rfl, hrest⟩ := List.cons.inj h
        have hquote : isQuote d = false := hs d List.mem_cons_self
        rw [hquote, if_neg (by decide)] at hrest
        exact List.forall_mem_cons.2
          ⟨⟨hne, hquote⟩, ih hrest fun e he => hs e (List.mem_cons_of_mem d he)⟩

/-- A line with other names for the labels that it defines says the same with the
    other names. -/
theorem parse_relabel (hlabels : ∀ label ∈ (parse line).labels, QuoteFree label)
    (hρ : ∀ label ∈ (parse line).labels, PlainName (ρ label)) :
    parse (relabel ρ line) = ⟨(parse line).labels.map ρ, (parse line).instruction⟩ ∧
      ∀ c ∈ relabel ρ line, Text.isBlank c = true → c ∈ line := by
  obtain ⟨rest, hline⟩ := isPrefix_beforeComment none line
  change stripComment line ++ rest = line at hline
  obtain ⟨labels, head, body, hcode, hheads, hbody⟩ := exists_heads (stripComment line)
  rw [parse_eq line, hcode, hheads.ofText_append_eq] at hlabels hρ ⊢
  have hnone : (ofText body).labels = [] := by
    obtain rfl | ⟨w, u, rfl, hw, hu⟩ := hbody
    · rfl
    · have hinstruction := Heads.nil.ofText_append hw hu
      rw [List.nil_append] at hinstruction
      rw [hinstruction]
  rw [hnone, List.append_nil] at hlabels hρ ⊢
  have hclean := clean_of_stripComment hcode (hheads.quoteFree hlabels)
  -- The comment begins behind the body, whatever clean text stands before it.
  have hstrip : stripComment (body ++ rest) = body := by
    have hsame : stripComment (head ++ (body ++ rest)) = head ++ body := by
      rw [← List.append_assoc, ← hcode, hline]
    rw [stripComment_append hclean] at hsame
    exact List.append_cancel_left hsame
  obtain ⟨head', hheads', hclean', hblanks, hrename⟩ := hheads.exists_renamed hρ hclean
  have hbody' : renameLabels ρ [] body = body := by
    obtain rfl | ⟨w, u, rfl, hw, hu⟩ := hbody
    · rfl
    · exact hw.renameLabels_append hu
  have hrelabel : relabel ρ line = head' ++ (body ++ rest) := by
    have hdrop : line.drop (stripComment line).length = rest := by
      conv =>
        lhs
        arg 2
        rw [← hline]
      exact List.drop_left
    rw [relabel, hdrop, hcode, hrename, hbody', List.append_assoc]
  constructor
  · rw [hrelabel, parse_eq, stripComment_append hclean', hstrip, hheads'.ofText_append_eq, hnone,
      List.append_nil]
  · intro c hc hblank
    rw [hrelabel] at hc
    rw [← hline, hcode, List.append_assoc]
    obtain hc | hc := List.mem_append.1 hc
    · exact List.mem_append_left _ (hblanks c hc hblank)
    · exact List.mem_append_right head hc

/-! ## References -/

theorem mem_replaceLast {c : Char} {n : Nat} (h : c ∈ replaceLast line n w) : c ∈ line ∨ c ∈ w := by
  simp only [replaceLast, List.mem_append] at h
  obtain (h | h) | h := h
  · obtain ⟨blanks, hsplit, -⟩ := Text.exists_trimRight (stripComment line)
    refine .inl (beforeComment_subset none line ?_)
    change c ∈ stripComment line
    rw [hsplit]
    exact List.mem_append_left blanks (List.mem_of_mem_take h)
  · exact .inr h
  · exact .inl (List.mem_of_mem_drop h)

theorem PlainName.reference (h : PlainName w) : PlainName ('%' :: w) := by
  refine ⟨⟨List.cons_ne_nil _ _, List.forall_mem_cons.2 ⟨rfl, h.word.2⟩⟩, ?_, ?_⟩
  · rw [List.mem_cons, not_or]
    exact ⟨by decide, h.colon⟩
  · exact List.forall_mem_cons.2 ⟨⟨by decide, rfl⟩, h.clean⟩

/-- What an accepted line can say: nothing but labels, or an instruction whose
    operands are read without a mistake. -/
def Sound (s : SourceLine) : Prop :=
  ∀ mnemonic operands, s.instruction = some (mnemonic, operands) →
    ∃ op arguments, Opcode.ofMnemonic? mnemonic = some op ∧
      Argument.readAll op.layout operands = (arguments, none)

theorem Recasts.of_arguments {mnemonic operands operands' : Text} {op : Opcode}
    {arguments : List Argument} (labels : List Text) (hop : Opcode.ofMnemonic? mnemonic = some op)
    (hread : Argument.readAll op.layout operands = (arguments, none))
    (hread' : Argument.readAll op.layout operands' =
      (arguments.map (Argument.rename ρ), none)) :
    Recasts ρ ⟨labels, some (mnemonic, operands)⟩
      ⟨labels.map ρ, some (mnemonic, operands')⟩ := by
  refine .instruction fun _ _ hop' hread'' => ?_
  rw [hop] at hop'
  cases hop'
  rw [hread] at hread''
  cases hread''
  exact ⟨hop, hread'⟩

theorem redirect_of_none (h : (parse line).reference? = none) : redirect ρ line = line := by
  rw [redirect, h]

/-- A line with another name for the label that it refers to says the same with the
    other name. -/
theorem redirect_spec (sound : (parse line).Sound)
    (hlabels : ∀ label ∈ (parse line).labels, QuoteFree label)
    (hname : ∀ name before, (parse line).reference? = some (name, before) →
      QuoteFree name ∧ PlainName (ρ name)) :
    (parse (redirect ρ line)).labels = (parse line).labels ∧
      (∀ c ∈ redirect ρ line, Text.isBlank c = true → c ∈ line) ∧
      Recasts ρ (parse line)
        ⟨(parse line).labels.map ρ, (parse (redirect ρ line)).instruction⟩ := by
  cases hi : (parse line).instruction with
  | none =>
    have hnone : (parse line).reference? = none := by
      rw [reference?, hi]
      rfl
    have hline : parse line = ⟨(parse line).labels, none⟩ := by rw [← hi]
    rw [redirect_of_none hnone, hi, hline]
    exact ⟨rfl, fun c hc _ => hc, .bare _⟩
  | some i =>
    obtain ⟨mnemonic, operands⟩ := i
    obtain ⟨op, arguments, hop, hread⟩ := sound mnemonic operands hi
    have hline : parse line = ⟨(parse line).labels, some (mnemonic, operands)⟩ := by rw [← hi]
    have hcarries : Assembly.empty.Carries line mnemonic operands ⟨0, 0, op, arguments⟩ :=
      ⟨hi, hop, hread, rfl⟩
    have hshape : Argument.Shape (parse line).reference? arguments := hcarries.shape
    cases hshape with
    | plain os hnone =>
      rw [redirect_of_none hnone, hi, hline]
      refine ⟨rfl, fun c hc _ => hc, .of_arguments _ hop hread ?_⟩
      rw [hread, Argument.map_rename_operands]
    | @referring registers name hsome =>
      obtain ⟨hfree, hplain⟩ := hname name _ hsome
      obtain ⟨hoffset, hlast⟩ := hcarries.last_of_reference? hsome
      have hstring : .string ∉ op.layout.kinds := by
        obtain ⟨n, -, hkinds⟩ := Layout.kinds_of_addressOffset? hoffset
        rw [hkinds]
        simp
      have hquotes := hcarries.quoteFree_code rfl hstring hlabels hfree
      have hreference := hplain.reference
      obtain ⟨before, operands', hbefore, hparse, hafter⟩ :=
        parse_replaceLast hquotes hi hlast hreference.word hreference.clean.quoteFree
          fun hmem => (hreference.clean _ hmem).1 rfl
      have hredirect : redirect ρ line = replaceLast line ('%' :: name).length ('%' :: ρ name) := by
        simp only [redirect, hsome, List.length_cons]
      rw [hredirect, hparse]
      refine ⟨rfl, fun c hc hblank => ?_, ?_⟩
      · obtain hc | hc := mem_replaceLast hc
        · exact hc
        · rw [hreference.word.2 c hc] at hblank
          cases hblank
      · rw [hline]
        refine .of_arguments _ hop hread ?_
        rw [Argument.readAll_append hoffset hread hbefore hafter (.reference hplain.word.1),
          List.map_append, Argument.map_rename_operands]
        rfl

/-- A line with other names for all its labels says the same under these names. -/
theorem rename_spec (sound : (parse line).Sound)
    (hlabels : ∀ label ∈ (parse line).labels, QuoteFree label ∧ PlainName (ρ label))
    (hname : ∀ name before, (parse line).reference? = some (name, before) →
      QuoteFree name ∧ PlainName (ρ name)) :
    (parse line).Recasts ρ (parse (rename ρ line)) ∧
      ∀ c ∈ rename ρ line, Text.isBlank c = true → c ∈ line := by
  obtain ⟨hsame, hblanks, hrecasts⟩ := redirect_spec sound (fun l hl => (hlabels l hl).1) hname
  have hfree : ∀ label ∈ (parse (redirect ρ line)).labels, QuoteFree label := by
    rw [hsame]
    exact fun l hl => (hlabels l hl).1
  have hplain : ∀ label ∈ (parse (redirect ρ line)).labels, PlainName (ρ label) := by
    rw [hsame]
    exact fun l hl => (hlabels l hl).2
  obtain ⟨hparse, hblanks'⟩ := parse_relabel hfree hplain
  rw [hsame] at hparse
  rw [rename, hparse]
  exact ⟨hrecasts, fun c hc hblank => hblanks c (hblanks' c hc hblank) hblank⟩

end SourceLine

end StackMachine
