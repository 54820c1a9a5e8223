-- SUMMARY: Putting another word in place of the last word of an instruction in the source.
import StackMachine.Proofs.References
import StackMachine.Proofs.SourceText

/-!
# Substituting words

The last operand of an instruction is the last word of the line's code. If that
code has no quotes, any other word may take its place in the text of the line:
labels, mnemonic and the other operands are read as before.
-/

namespace StackMachine

/-- A character of a text is a blank or belongs to a word. -/
theorem Text.mem_words {t : Text} {c : Char} (hc : c ∈ t) :
    isBlank c = true ∨ ∃ w ∈ words t, c ∈ w := by
  have hcut : isBlank c = true ∨ ∃ w ∈ cut isBlank t, c ∈ w := by
    induction t with
    | nil => cases hc
    | cons d t ih =>
      obtain ⟨first, others, hsplit⟩ := List.exists_cons_of_ne_nil (cut_ne_nil isBlank t)
      rw [cut]
      split
      · rename_i hd
        rcases List.mem_cons.1 hc with rfl | hc
        · exact .inl hd
        · obtain hblank | ⟨w, hw, hc⟩ := ih hc
          · exact .inl hblank
          · exact .inr ⟨w, List.mem_cons_of_mem _ hw, hc⟩
      · rw [hsplit, List.modifyHead_cons]
        rcases List.mem_cons.1 hc with rfl | hc
        · exact .inr ⟨_, List.mem_cons_self, List.mem_cons_self⟩
        · rw [hsplit] at ih
          obtain hblank | ⟨w, hw, hc⟩ := ih hc
          · exact .inl hblank
          · rcases List.mem_cons.1 hw with rfl | hw
            · exact .inr ⟨_, List.mem_cons_self, List.mem_cons_of_mem d hc⟩
            · exact .inr ⟨w, List.mem_cons_of_mem _ hw, hc⟩
  obtain hblank | ⟨w, hw, hc⟩ := hcut
  · exact .inl hblank
  refine .inr ⟨w, ?_, hc⟩
  rw [words, List.mem_filter]
  exact ⟨hw, by simpa using List.ne_nil_of_mem hc⟩

namespace SourceLine

open Text (Blank IsWord Detached)

variable {t u w w' line mnemonic operands : Text}

/-- Read a line that has been trimmed and rid of its comment. -/
def ofText (t : Text) : SourceLine :=
  let (labels, rest) := splitLabels [] t
  ⟨labels, splitInstruction rest⟩

theorem parse_eq_ofText (line : Text) :
    parse line = ofText (Text.trim (stripComment (Text.trim line))) := rfl

/-! ## The last word -/

/-- Labels, then a mnemonic, then a blank and the operands. -/
theorem exists_of_ofText (h : (ofText t).instruction = some (mnemonic, operands))
    (hne : Text.words operands ≠ []) :
    ∃ front b more, splitLabels [] t = ((ofText t).labels, mnemonic ++ b :: more) ∧
      t = front ++ (mnemonic ++ b :: more) ∧ IsWord mnemonic ∧ Text.isBlank b = true ∧
      operands = Text.trim (b :: more) ∧
      ∀ c ∈ front, Text.isBlank c = true ∨ c = ':' ∨ ∃ label ∈ (ofText t).labels, c ∈ label := by
  unfold ofText at h ⊢
  cases hsplit : splitLabels [] t with
  | mk labels rest =>
    simp only [hsplit] at h ⊢
    obtain ⟨hnil, hmnemonic, hoperands⟩ := splitInstruction_eq_some.1 h
    have hword : IsWord mnemonic := by
      refine ⟨hnil, fun c hc => ?_⟩
      rw [← hmnemonic] at hc
      simpa using List.mem_takeWhile_imp hc
    obtain ⟨front, hfront, hchars⟩ := exists_of_splitLabels hsplit
    have hrest : mnemonic ++ rest.dropWhile (fun c => !Text.isBlank c) = rest := by
      rw [← hmnemonic]
      exact List.takeWhile_append_dropWhile
    have hhead := List.head?_dropWhile_not (fun c => !Text.isBlank c) rest
    cases hmore : rest.dropWhile fun c => !Text.isBlank c with
    | nil =>
      rw [hmore] at hoperands
      rw [hoperands] at hne
      exact absurd rfl hne
    | cons b more =>
      rw [hmore] at hrest hoperands hhead
      have hb : Text.isBlank b = true := by simpa using hhead
      exact ⟨front, b, more, by rw [hrest], by rw [hrest]; exact hfront, hword, hb, hoperands,
        hchars⟩

/-- The last operand is the last word of the text. -/
theorem getLast?_words (h : (ofText t).instruction = some (mnemonic, operands))
    (hlast : (Text.words operands).getLast? = some w) : (Text.words t).getLast? = some w := by
  have hne : Text.words operands ≠ [] :=
    List.getLast?_isSome.1 (Option.isSome_of_eq_some hlast)
  obtain ⟨front, b, more, -, hsplit, -, hb, hoperands, -⟩ := exists_of_ofText h hne
  rw [hoperands, Text.words_trim, Text.words_cons hb] at hlast
  rw [hsplit, ← List.append_assoc, Text.words_append_cons hb, List.getLast?_append, hlast]
  rfl

/-- A text has no quotes if neither its labels nor its instruction has any. -/
theorem quoteFree_of_ofText (h : (ofText t).instruction = some (mnemonic, operands))
    (hne : Text.words operands ≠ []) (hlabels : ∀ label ∈ (ofText t).labels, QuoteFree label)
    (hmnemonic : QuoteFree mnemonic) (hwords : ∀ w ∈ Text.words operands, QuoteFree w) :
    QuoteFree t := by
  obtain ⟨front, b, more, -, hsplit, -, hb, hoperands, hchars⟩ := exists_of_ofText h hne
  have hfront : QuoteFree front := by
    intro c hc
    obtain hblank | rfl | ⟨label, hlabel, hc⟩ := hchars c hc
    · exact isQuote_of_isBlank hblank
    · rfl
    · exact hlabels label hlabel c hc
  have hmore : QuoteFree (b :: more) := by
    rw [← quoteFree_trim, ← hoperands]
    intro c hc
    obtain hblank | ⟨w, hw, hc⟩ := Text.mem_words hc
    · exact isQuote_of_isBlank hblank
    · exact hwords w hw c hc
  rw [hsplit]
  exact hfront.append (hmnemonic.append hmore)

/-- Another word in place of the last one is read as another last operand. -/
theorem ofText_append_word (ht : Detached t) (hw : IsWord w)
    (h : (ofText (t ++ w)).instruction = some (mnemonic, operands))
    (hlast : (Text.words operands).getLast? = some w) :
    ∃ before, Text.words operands = before ++ [w] ∧ ∀ w', IsWord w' →
      ∃ operands', ofText (t ++ w') = ⟨(ofText (t ++ w)).labels, some (mnemonic, operands')⟩ ∧
        Text.words operands' = before ++ [w'] := by
  have hne : Text.words operands ≠ [] :=
    List.getLast?_isSome.1 (Option.isSome_of_eq_some hlast)
  obtain ⟨front, b, more, hlabels, hsplit, hmnemonic, hb, hoperands, -⟩ := exists_of_ofText h hne
  have hempty : ∀ c ∈ ([] : Text), Text.isBlank c = false := fun _ hc => (nomatch hc)
  obtain ⟨kept, hkept, -, hall⟩ :=
    splitLabels_append_word hempty hw hlabels ⟨b, by simp, hb⟩
  -- The blank behind the mnemonic is no part of the word, so the word begins later.
  obtain ⟨middle, rfl, rfl⟩ : ∃ middle, kept = mnemonic ++ b :: middle ∧ more = middle ++ w := by
    rcases List.append_eq_append_iff.1 hkept with ⟨rest, hrest, hmore⟩ | ⟨rest, -, hmore⟩
    · cases rest with
      | nil =>
        rw [List.nil_append] at hmore
        have hmem : b ∈ w := by
          rw [← hmore]
          exact List.mem_cons_self
        rw [hw.2 b hmem] at hb
        cases hb
      | cons c middle =>
        obtain ⟨rfl, rfl⟩ := List.cons.inj hmore
        exact ⟨middle, hrest, rfl⟩
    · have hmem : b ∈ w := by
        rw [hmore]
        exact List.mem_append_right rest List.mem_cons_self
      rw [hw.2 b hmem] at hb
      cases hb
  have hdetached : Detached (b :: middle) := by
    have htext : t = (front ++ mnemonic) ++ b :: middle := by
      have happend : t ++ w = (front ++ mnemonic) ++ b :: middle ++ w := by
        rw [hsplit]
        simp
      exact List.append_cancel_right happend
    rw [htext] at ht
    exact ht.of_append
  refine ⟨Text.words (b :: middle), ?_, fun w' hw' => ?_⟩
  · rw [hoperands, Text.words_trim, ← List.cons_append, Text.words_append_word hdetached hw]
  · refine ⟨Text.trim (b :: middle ++ w'), ?_, ?_⟩
    · have hinstruction : splitInstruction (mnemonic ++ b :: middle ++ w') =
          some (mnemonic, Text.trim (b :: middle ++ w')) := by
        have hkeep : ∀ c ∈ mnemonic, (!Text.isBlank c) = true := fun c hc => by
          simp [hmnemonic.2 c hc]
        rw [List.append_assoc, splitInstruction_eq_some, List.takeWhile_append_of_pos hkeep,
          List.dropWhile_append_of_pos hkeep]
        refine ⟨hmnemonic.1, ?_, ?_⟩
        · simp [hb]
        · simp [hb]
      rw [ofText, hall w']
      exact congrArg _ hinstruction
    · rw [Text.words_trim, Text.words_append_word hdetached hw']

/-! ## Replacing the last operand -/

/-- The line with the word `w` in place of the last `n` characters before its
    comment. -/
def replaceLast (line : Text) (n : Nat) (w : Text) : Text :=
  let code := Text.trimRight (stripComment line)
  code.take (code.length - n) ++ w ++ line.drop code.length

theorem code_append_dropWhile (line : Text) : code line ++ line.dropWhile (· ≠ ';') = line :=
  List.takeWhile_append_dropWhile

theorem code_append_comment (h : ';' ∉ t) (line : Text) :
    code (t ++ line.dropWhile (· ≠ ';')) = t := by
  have hcomment : (line.dropWhile (· ≠ ';')).takeWhile (· ≠ ';') = [] := by
    have hhead := List.head?_dropWhile_not (· ≠ ';') line
    cases hrest : line.dropWhile (· ≠ ';') with
    | nil => rfl
    | cons c rest =>
      rw [hrest] at hhead
      exact List.takeWhile_cons_of_neg (by simpa using hhead)
  have hkeep : ∀ c ∈ t, decide (c ≠ ';') = true := by
    intro c hc
    rw [decide_eq_true_eq]
    rintro rfl
    exact h hc
  rw [code, List.takeWhile_append_of_pos hkeep, hcomment, List.append_nil]

theorem not_mem_code (line : Text) : ';' ∉ code line := by
  intro h
  have hne := List.mem_takeWhile_imp h
  simp at hne

theorem replaceLast_eq {blanks : Text} (hquotes : QuoteFree (code line))
    (hcode : code line = u ++ (w ++ blanks)) (hw : IsWord w) (hblanks : Blank blanks) (w' : Text) :
    replaceLast line w.length w' = u ++ (w' ++ blanks) ++ line.dropWhile (· ≠ ';') := by
  have htrim : Text.trimRight (stripComment line) = u ++ w := by
    rw [stripComment_eq_code hquotes, hcode, ← List.append_assoc,
      Text.trimRight_append_blank hblanks, Text.trimRight_append_word hw]
  have hline : line = u ++ w ++ (blanks ++ line.dropWhile (· ≠ ';')) := by
    conv =>
      lhs
      rw [← code_append_dropWhile line, hcode]
    simp
  have hdrop : line.drop (u ++ w).length = blanks ++ line.dropWhile (· ≠ ';') := by
    conv =>
      lhs
      rw [hline]
    exact List.drop_left
  have htake : (u ++ w).take ((u ++ w).length - w.length) = u := by
    rw [List.length_append, Nat.add_sub_cancel, List.take_left]
  unfold replaceLast
  rw [htrim]
  dsimp only
  rw [htake, hdrop]
  simp

/-- In a line without quotes another word takes the place of the last operand. -/
theorem parse_replaceLast (hquotes : QuoteFree (code line))
    (h : (parse line).instruction = some (mnemonic, operands))
    (hlast : (Text.words operands).getLast? = some w) (hw' : IsWord w') (hquotes' : QuoteFree w')
    (hsemicolon : ';' ∉ w') :
    ∃ before operands', Text.words operands = before ++ [w] ∧
      parse (replaceLast line w.length w') =
        ⟨(parse line).labels, some (mnemonic, operands')⟩ ∧
      Text.words operands' = before ++ [w'] := by
  -- In the code the last word has blanks at most behind it, and the comment follows.
  rw [parse_eq_ofText, trim_stripComment_trim hquotes] at h
  have hwords := getLast?_words h hlast
  rw [Text.words_trim] at hwords
  obtain ⟨u, blanks, hcode, hu, hw, hblanks⟩ := Text.exists_last_word hwords
  have hfree := hcode ▸ hquotes
  have hnew : code (replaceLast line w.length w') = u ++ (w' ++ blanks) := by
    rw [replaceLast_eq hquotes hcode hw hblanks]
    refine code_append_comment ?_ line
    have hold := hcode ▸ not_mem_code line
    simp only [List.mem_append, not_or] at hold ⊢
    exact ⟨hold.1, hsemicolon, hold.2.2⟩
  have hnewQuotes : QuoteFree (code (replaceLast line w.length w')) := by
    rw [hnew]
    exact hfree.of_append.1.append (hquotes'.append hfree.of_append.2.of_append.2)
  have hdetached : Detached (Text.trimLeft u) := by
    obtain ⟨front, hsplit, -⟩ := Text.exists_trimLeft u
    rw [hsplit] at hu
    exact hu.of_append
  have hparse : parse line = ofText (Text.trimLeft u ++ w) := by
    rw [parse_eq_ofText, trim_stripComment_trim hquotes, hcode, Text.trim_append_word hw hblanks]
  have hparse' : parse (replaceLast line w.length w') = ofText (Text.trimLeft u ++ w') := by
    rw [parse_eq_ofText, trim_stripComment_trim hnewQuotes, hnew,
      Text.trim_append_word hw' hblanks]
  rw [hcode, Text.trim_append_word hw hblanks] at h
  obtain ⟨before, hbefore, hall⟩ := ofText_append_word hdetached hw h hlast
  obtain ⟨operands', hinstruction, hoperands'⟩ := hall w' hw'
  refine ⟨before, operands', hbefore, ?_, hoperands'⟩
  rw [hparse', hparse]
  exact hinstruction

end SourceLine

end StackMachine
