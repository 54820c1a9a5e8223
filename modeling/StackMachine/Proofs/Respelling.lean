-- SUMMARY: White space and the case of letters do not change what a line says.
import StackMachine.Proofs.Relocation
import StackMachine.Proofs.Tokens

/-!
# Respelling lines

A line may be written in many ways. White space may be added at its ends, a run of
it in front of any literal may be another one, and mnemonics and register names
may be in letters of either case. The line says the same.
-/

namespace StackMachine

/-! ## Mnemonics and register names -/

/-- Two spellings of one mnemonic, in letters of either case. -/
def Opcode.Synonyms (mnemonic mnemonic' : Text) : Prop :=
  mnemonic.map Char.toUpper = mnemonic'.map Char.toUpper ∨
    mnemonic.map Char.toUpper ∈ ["EXIT".toList, "HALT".toList] ∧
      mnemonic'.map Char.toUpper ∈ ["EXIT".toList, "HALT".toList]

theorem Opcode.Synonyms.ofMnemonic?_eq {mnemonic mnemonic' : Text}
    (h : Synonyms mnemonic mnemonic') : ofMnemonic? mnemonic' = ofMnemonic? mnemonic := by
  have hhalt : ∀ {name : Text}, name.map Char.toUpper ∈ ["EXIT".toList, "HALT".toList] →
      ofMnemonic? name = some .halt := by
    intro name hname
    unfold ofMnemonic?
    simp only [List.mem_cons, List.not_mem_nil, or_false] at hname
    obtain hname | hname := hname
    · rw [hname]
      rfl
    · rw [hname]
      rfl
  obtain h | ⟨h, h'⟩ := h
  · rw [ofMnemonic?, ofMnemonic?, h]
  · rw [hhalt h, hhalt h']

namespace Listing

theorem isWordChar_of_toUpper {c : Char} (h : isWordChar c.toUpper = true) :
    isWordChar c = true := by
  by_cases hlower : c.isLower = true
  · simp [isWordChar, Char.isAlphanum, Char.isAlpha, hlower]
  · have hsame : c.toUpper = c := by
      rw [Char.toUpper, dif_neg]
      simpa [Char.isLower] using hlower
    rwa [hsame] at h

theorem word_of_map_toUpper {t : Text} (h : Word (t.map Char.toUpper)) : Word t :=
  ⟨fun hnil => h.1 (by rw [hnil]; rfl),
    fun c hc => isWordChar_of_toUpper (h.2 _ (List.mem_map_of_mem hc))⟩

theorem word_of_ofMnemonic? {name : Text} {op : Opcode} (h : Opcode.ofMnemonic? name = some op) :
    Word name := by
  apply word_of_map_toUpper
  unfold Opcode.ofMnemonic? at h
  dsimp only at h
  split at h
  · rename_i hexit
    rw [hexit]
    exact ⟨by decide, List.all_eq_true.1 (by decide)⟩
  · have hname := List.find?_some h
    rw [decide_eq_true_eq] at hname
    rw [← hname]
    exact word_mnemonic op

theorem word_of_ofName? {name : Text} {r : Register} (h : Register.ofName? name = some r) :
    Word name := by
  apply word_of_map_toUpper
  have hname := List.find?_some h
  rw [decide_eq_true_eq] at hname
  rw [← hname]
  exact word_name r

theorem Word.opens {t : Text} (h : Word t) : SourceLine.Opens t :=
  ⟨h.isWord, fun hc => (not_delimiter_of_isWordChar (h.2 _ hc)).2.1 rfl⟩

end Listing

/-- A number has a sign at most, and digits. -/
theorem Argument.isDigit_of_parse? {t : Text} {v : Int} (h : Decimal.parse? t = some v) :
    ∀ c ∈ t, c.isDigit = true ∨ c = '-' ∨ c = '+' := by
  have hdigits : ∀ {s : Text} {n : Nat}, Decimal.natural? s = some n →
      ∀ c ∈ s, c.isDigit = true ∨ c = '-' ∨ c = '+' := by
    intro s n hn c hc
    unfold Decimal.natural? at hn
    split at hn
    · rename_i hall
      exact .inl (List.all_eq_true.1 hall.2 c hc)
    · cases hn
  obtain ⟨hinteger, -⟩ := Option.filter_eq_some_iff.1 h
  unfold Decimal.integer? at hinteger
  split at hinteger <;> obtain ⟨_, hv, -⟩ := Option.map_eq_some_iff.1 hinteger <;>
    obtain ⟨n, hn, -⟩ := Option.bind_eq_some_iff.1 hv
  · exact List.forall_mem_cons.2 ⟨.inr (.inl rfl), hdigits hn⟩
  · exact List.forall_mem_cons.2 ⟨.inr (.inr rfl), hdigits hn⟩
  · exact hdigits hn

/-- Names of registers that differ in the case of letters only. -/
theorem Argument.respelled_register {name name' : Text} {r : Register}
    (h : Register.ofName? name = some r)
    (hcase : name.map Char.toUpper = name'.map Char.toUpper) :
    Respelled ('$' :: name) ('$' :: name') := by
  have hname : Register.ofName? name' = some r := by
    rw [← h, Register.ofName?, Register.ofName?, hcase]
  have hnumber : ∀ {v : Int}, Decimal.parse? ('$' :: name) ≠ some v := by
    intro v hv
    have hsign := isDigit_of_parse? hv '$' List.mem_cons_self
    revert hsign
    decide
  intro kind argument hread
  generalize ht : '$' :: name = t at hread
  cases hread with
  | exitCode number | integer number _ | address _ number _ =>
    rw [← ht] at number
    exact absurd number hnumber
  | register named =>
    cases ht
    rw [h] at named
    cases named
    exact .register hname
  | reference _ => cases ht
  | string quote _ =>
    rw [← (List.cons.inj ht).1] at quote
    cases quote

namespace SourceLine

open Text (Blank IsWord Detached Parted)

variable {s t u : Text} {labels : List Text}

/-! ## Lines -/

/-- The text goes on with white space or a comment, if it does not end. -/
def Ends (t : Text) : Prop :=
  t = [] ∨ ∃ c s, t = c :: s ∧ (Text.isBlank c = true ∨ c = ';')

theorem Ends.parted (h : Ends t) : Parted (stripComment t) := by
  obtain rfl | ⟨c, s, rfl, hc | rfl⟩ := h
  · exact .inl rfl
  · have hclean := clean_of_blank (Text.blank_singleton hc)
    exact .inr ⟨c, stripComment s, hc, stripComment_append hclean s⟩
  · exact .inl rfl

/-- Other ways to write the text of a line. What is rewritten stands before any
    comment, and before any literal. -/
inductive Respells : Text → Text → Prop
  | edges {before before' after after' : Text} (t : Text) (blank : Blank before ∧ Blank after)
      (blank' : Blank before' ∧ Blank after') :
      Respells (before ++ t ++ after) (before' ++ t ++ after')
  | space {front run run' : Text} (back : Text) (clean : Clean front) (blank : Blank run)
      (blank' : Blank run') (nonempty : run ≠ []) (nonempty' : run' ≠ []) :
      Respells (front ++ run ++ back) (front ++ run' ++ back)
  | mnemonic {labels : List Text} {front name name' back : Text} {op : Opcode}
      (heads : Heads labels front) (clean : Clean front)
      (named : Opcode.ofMnemonic? name = some op) (synonyms : Opcode.Synonyms name name')
      (ends : Ends back) : Respells (front ++ name ++ back) (front ++ name' ++ back)
  | register {front name name' back : Text} {r : Register} (clean : Clean front)
      (detached : Detached front) (named : Register.ofName? name = some r)
      (case : name.map Char.toUpper = name'.map Char.toUpper) (ends : Ends back) :
      Respells (front ++ '$' :: name ++ back) (front ++ '$' :: name' ++ back)

theorem Heads.ofText_append_eq (h : Heads labels t) (u : Text) :
    ofText (t ++ u) = ⟨labels ++ (ofText u).labels, (ofText u).instruction⟩ := by
  rw [ofText, h.splitLabels_append]
  rfl

theorem Clean.quoteFree (h : Clean t) : QuoteFree t :=
  fun c hc => (h c hc).2

theorem Clean.of_append (h : Clean (s ++ t)) : Clean s ∧ Clean t :=
  ⟨fun c hc => h c (List.mem_append_left t hc), fun c hc => h c (List.mem_append_right s hc)⟩

/-- An instruction is the same if its operands have the same tokens, or ones that
    are read alike. -/
theorem Heads.recasts {w u' : Text} (h : Heads labels t) (hw : Opens w) (hu : Parted u)
    (hu' : Parted u')
    (hapart : ∀ layout, Argument.Apart layout u ↔ Argument.Apart layout u')
    (htokens : ∀ layout, List.Forall₂ Argument.Respelled (Argument.tokens layout u)
      (Argument.tokens layout u')) :
    (ofText (t ++ (w ++ u))).Recasts id (ofText (t ++ (w ++ u'))) := by
  rw [h.ofText_append hw hu, h.ofText_append hw hu']
  exact .of_readAll labels fun op _ hop hread =>
    ⟨hop, Argument.readAll_of_tokens hread (hapart op.layout).1 (htokens op.layout)⟩

/-- Where the line has white space, it does not matter which. -/
theorem recasts_space {front run run' : Text} (back : Text) (clean : Clean front)
    (blank : Blank run) (blank' : Blank run') (nonempty : run ≠ []) (nonempty' : run' ≠ []) :
    (parse (front ++ run ++ back)).Recasts id (parse (front ++ run' ++ back)) := by
  have hparse : ∀ {blanks : Text}, Blank blanks →
      parse (front ++ blanks ++ back) = ofText (front ++ (blanks ++ stripComment back)) := by
    intro blanks hblanks
    rw [parse_eq, stripComment_append (clean.append (clean_of_blank hblanks)), List.append_assoc]
  rw [hparse blank, hparse blank']
  obtain ⟨labels, head, body, rfl, hheads, rfl | ⟨w, rest, rfl, hw, hrest⟩⟩ := exists_heads front
  · rw [List.append_nil, hheads.ofText_append_eq, hheads.ofText_append_eq,
      ofText_blank_append blank, ofText_blank_append blank']
  · -- The run stands behind the mnemonic, so it parts tokens of the operands.
    have hparted : ∀ {blanks : Text}, Blank blanks → blanks ≠ [] →
        Parted (rest ++ (blanks ++ stripComment back)) := by
      intro blanks hblanks hne
      by_cases hnil : rest = []
      · rw [hnil]
        exact hblanks.parted hne _
      · exact hrest.append hnil _
    have hfree : QuoteFree rest := clean.of_append.2.of_append.2.quoteFree
    have htokens : ∀ {blanks : Text} (layout : Layout), Blank blanks → blanks ≠ [] →
        Argument.tokens layout (rest ++ (blanks ++ stripComment back)) =
          Text.words rest ++ Argument.tokens layout (stripComment back) ∧
        (Argument.Apart layout (rest ++ (blanks ++ stripComment back)) ↔
          Argument.Apart layout (stripComment back)) := by
      intro blanks layout hblanks hne
      have hfree' := hfree.append (quoteFree_of_blank hblanks)
      have hdetached := hblanks.detached hne rest
      rw [← List.append_assoc, Argument.tokens_append hfree' hdetached,
        Text.words_append_blank hblanks, Argument.apart_append hfree' hdetached]
      exact ⟨rfl, Iff.rfl⟩
    simp only [List.append_assoc]
    refine hheads.recasts hw (hparted blank nonempty) (hparted blank' nonempty')
      (fun layout => ?_) fun layout => ?_
    · rw [(htokens layout blank nonempty).2, (htokens layout blank' nonempty').2]
    · rw [(htokens layout blank nonempty).1, (htokens layout blank' nonempty').1]
      exact Argument.forall₂_respelled_refl _

theorem recasts_mnemonic {front name name' back : Text} {op : Opcode}
    (heads : Heads labels front) (clean : Clean front)
    (named : Opcode.ofMnemonic? name = some op) (synonyms : Opcode.Synonyms name name')
    (ends : Ends back) :
    (parse (front ++ name ++ back)).Recasts id (parse (front ++ name' ++ back)) := by
  have hparse : ∀ {w : Text}, Opcode.ofMnemonic? w = some op →
      parse (front ++ w ++ back) = ⟨labels, some (w, Text.trim (stripComment back))⟩ := by
    intro w hw
    have hword := Listing.word_of_ofMnemonic? hw
    rw [parse_eq, stripComment_append (clean.append (clean_of_word hword)), List.append_assoc,
      heads.ofText_append hword.opens ends.parted]
  rw [hparse named, hparse (synonyms.ofMnemonic?_eq.trans named)]
  exact .of_readAll labels fun op' arguments hop hread =>
    ⟨synonyms.ofMnemonic?_eq.trans hop, hread⟩

theorem recasts_register {front name name' back : Text} {r : Register} (clean : Clean front)
    (detached : Detached front) (named : Register.ofName? name = some r)
    (case : name.map Char.toUpper = name'.map Char.toUpper) (ends : Ends back) :
    (parse (front ++ '$' :: name ++ back)).Recasts id (parse (front ++ '$' :: name' ++ back)) := by
  have named' : Register.ofName? name' = some r := by
    rw [← named, Register.ofName?, Register.ofName?, case]
  have hword : ∀ {n : Text}, Register.ofName? n = some r → Listing.Word ('$' :: n) :=
    fun hn => (Listing.word_of_ofName? hn).cons rfl
  have hparse : ∀ {n : Text}, Register.ofName? n = some r →
      parse (front ++ '$' :: n ++ back) = ofText (front ++ ('$' :: n ++ stripComment back)) := by
    intro n hn
    rw [parse_eq, stripComment_append (clean.append (clean_of_word (hword hn))), List.append_assoc]
  rw [hparse named, hparse named']
  obtain ⟨labels, head, body, rfl, hheads, rfl | ⟨w, rest, rfl, hw, hrest⟩⟩ := exists_heads front
  · -- Without a mnemonic before it the name of the register would be one.
    rw [List.append_nil, hheads.ofText_append (hword named).opens ends.parted,
      hheads.ofText_append (hword named').opens ends.parted]
    have hsynonyms : Opcode.Synonyms ('$' :: name) ('$' :: name') :=
      .inl (by rw [List.map_cons, List.map_cons, case])
    exact .of_readAll labels fun op arguments hop hread =>
      ⟨hsynonyms.ofMnemonic?_eq.trans hop, hread⟩
  · have hne : rest ≠ [] := by
      rintro rfl
      rw [List.append_nil] at detached
      exact hw.word.not_detached_append head detached
    have hfree : QuoteFree rest := clean.of_append.2.of_append.2.quoteFree
    have hdetached : Detached rest := detached.of_append.of_append
    have htokens : ∀ {n : Text} (layout : Layout), Register.ofName? n = some r →
        Argument.tokens layout (rest ++ ('$' :: n ++ stripComment back)) =
          Text.words rest ++ ('$' :: n) :: Argument.tokens layout (stripComment back) ∧
        (Argument.Apart layout (rest ++ ('$' :: n ++ stripComment back)) ↔
          Argument.Apart layout (stripComment back)) := by
      intro n layout hn
      have hquotes := (clean_of_word (hword hn)).quoteFree
      rw [Argument.tokens_append hfree hdetached,
        Argument.tokens_word_append hquotes (hword hn).isWord ends.parted,
        Argument.apart_append hfree hdetached, Argument.apart_word_append hquotes ends.parted]
      exact ⟨rfl, Iff.rfl⟩
    simp only [List.append_assoc]
    refine hheads.recasts hw (hrest.append hne _) (hrest.append hne _) (fun layout => ?_)
      fun layout => ?_
    · rw [(htokens layout named).2, (htokens layout named').2]
    · rw [(htokens layout named).1, (htokens layout named').1]
      exact List.rel_append (Argument.forall₂_respelled_refl _)
        (.cons (Argument.respelled_register named case) (Argument.forall₂_respelled_refl _))

/-- A line that is written in another way says the same. -/
theorem Respells.recasts (h : Respells s t) : (parse s).Recasts id (parse t) := by
  cases h with
  | edges t blank blank' =>
    have hparse : ∀ {before after : Text}, Blank before ∧ Blank after →
        parse (before ++ t ++ after) = parse t := by
      intro before after hblank
      rw [parse_congr (Text.trim_append_blank hblank.2),
        parse_congr (Text.trim_blank_append hblank.1 t)]
    rw [hparse blank, hparse blank']
  | space back clean blank blank' nonempty nonempty' =>
    exact recasts_space back clean blank blank' nonempty nonempty'
  | mnemonic heads clean named synonyms ends =>
    exact recasts_mnemonic heads clean named synonyms ends
  | register clean detached named case ends =>
    exact recasts_register clean detached named case ends

end SourceLine

end StackMachine
