-- SUMMARY: A source that is presented in another way has the same program.
import Mathlib.Logic.Relation
import StackMachine.Proofs.Mistakes
import StackMachine.Proofs.Renaming

/-!
# Presentation

A source may be presented in many ways: with other line ends, with more lines that
say nothing, with its lines respelled, and with other names for its labels. What
its lines say is the same up to the names of labels, and so is its program.
-/

namespace StackMachine

/-! ## Sources that say the same -/

namespace Assembly

variable {ρ : Text → Text} {source source' : Text} {program : Bytes} {a b : Assembly}
  {line : Text} {lines lines' : List Text}

/-- The program depends on what the lines say, and not on the names of labels. -/
theorem assemble_of_recasts (h : assemble source = .ok program)
    (hρ : Renaming ρ (Declares source))
    (hcontents : List.Forall₂ (SourceLine.Recasts ρ) (contents (Text.lines source))
      (contents (Text.lines source'))) : assemble source' = .ok program := by
  obtain ⟨a, entries, hassembled⟩ := assembled_statements h
  have hstart : Mirrors ρ (Declares source) empty empty empty := mirrors_start fun _ _ => rfl
  obtain ⟨b, hb, hmirrors⟩ := hstart.forM_feed hρ hcontents
    (fun line hline label hlabel => (declares_of_mem hassembled.accepted hline hlabel).2)
    hassembled.accepted
  have hlinks := Statement.links_of_mirrors hmirrors.forall₂_statements hassembled.links
    fun _ _ => hmirrors.lookup_eq
  rw [assemble, show ofSource source' = .ok () b from hb, hassembled.program_eq]
  exact link_eq_ok.2 ⟨entries, hlinks, rfl⟩

/-- What lines say, in the order of the lines. -/
theorem mem_contents {s : SourceLine} :
    s ∈ contents lines ↔ s ≠ .idle ∧ ∃ line ∈ lines, SourceLine.parse line = s := by
  simp [contents, and_comm]

theorem Declares.exists_line {name : Text} (h : Declares source name) :
    ∃ line ∈ Text.lines source, name ∈ (SourceLine.parse line).labels := by
  obtain ⟨_, line, b, hmeets, hlabel, -⟩ := h
  obtain ⟨before, rest, hsplit, -⟩ := meets_iff.1 hmeets
  exact ⟨line, by rw [hsplit]; simp, hlabel⟩

theorem Declares.ne_nil {name : Text} (h : Declares source name) (ha : ofSource source = .ok () a) :
    name ≠ [] := by
  obtain ⟨line, hline, hlabel⟩ := h.exists_line
  exact (declares_of_mem ha hline hlabel).1

/-- The labels that the other source declares are the renamed ones. -/
theorem declares_of_recasts (h : ofSource source = .ok () a)
    (hcontents : List.Forall₂ (SourceLine.Recasts ρ) (contents (Text.lines source))
      (contents (Text.lines source'))) {name' : Text} (hname' : Declares source' name') :
    ∃ name, Declares source name ∧ name' = ρ name := by
  obtain ⟨line', hline', hlabel⟩ := hname'.exists_line
  have hmem : SourceLine.parse line' ∈ contents (Text.lines source') := by
    refine mem_contents.2 ⟨fun hidle => ?_, line', hline', rfl⟩
    rw [hidle] at hlabel
    cases hlabel
  obtain ⟨s, hs, hrecasts⟩ := exists_of_forall₂ hcontents.flip hmem
  obtain ⟨-, line, hline, rfl⟩ := mem_contents.1 hs
  have hlabels : (SourceLine.parse line').labels = (SourceLine.parse line).labels.map ρ :=
    hrecasts.labels_eq
  rw [hlabels] at hlabel
  obtain ⟨name, hname, rfl⟩ := List.mem_map.1 hlabel
  exact ⟨name, (declares_of_mem h hline hname).2, rfl⟩

/-- Lines that are recast one by one say the same. -/
theorem recasts_contents (h : List.Forall₂ (fun line line' =>
      (SourceLine.parse line).Recasts ρ (SourceLine.parse line')) lines lines') :
    List.Forall₂ (SourceLine.Recasts ρ) (contents lines) (contents lines') := by
  induction h with
  | nil => exact .nil
  | @cons line line' _ _ hline _ ih =>
    by_cases hidle : SourceLine.parse line = .idle
    · rw [contents_cons_of_idle hidle, contents_cons_of_idle (hline.idle_iff.1 hidle)]
      exact ih
    · rw [contents_cons_of_ne hidle, contents_cons_of_ne (mt hline.idle_iff.2 hidle)]
      exact .cons hline ih

/-! ## Ways to present a source -/

/-- A line begins behind the text. -/
def OpensLine (t : Text) : Prop :=
  t = [] ∨ ∃ s, t = s ++ ['\n']

/-- The text is blank, or a comment is all that it has. -/
def Silent (t : Text) : Prop :=
  ∃ blanks comment, t = blanks ++ comment ∧ Text.Blank blanks ∧
    (comment = [] ∨ ∃ s, comment = ';' :: s)

/-- The source with a carriage return before every line feed. -/
def returns (source : Text) : Text :=
  source.flatMap fun c => if c = '\n' then ['\r', '\n'] else [c]

/-- The source with other names for all labels. -/
def renameSource (ρ : Text → Text) (source : Text) : Text :=
  ['\n'].intercalate ((Text.cut (· = '\n') source).map (SourceLine.rename ρ))

/-- One change to how a source is presented: a line is respelled, a line that says
    nothing is put above or below some line, the line ends become those of another
    system, or labels are renamed. -/
inductive Restyles : Text → Text → Prop
  | line {front t t' back : Text} (opens : OpensLine front) (closes : Text.ClosesLine back)
      (newline : '\n' ∉ t) (newline' : '\n' ∉ t') (respells : SourceLine.Respells t t') :
      Restyles (front ++ t ++ back) (front ++ t' ++ back)
  | above {front t back : Text} (opens : OpensLine front) (newline : '\n' ∉ t)
      (silent : Silent t) : Restyles (front ++ back) (front ++ t ++ '\n' :: back)
  | below {front t back : Text} (closes : Text.ClosesLine back) (newline : '\n' ∉ t)
      (silent : Silent t) : Restyles (front ++ back) (front ++ '\n' :: t ++ back)
  | returns (source : Text) : Restyles source (returns source)
  | rename {ρ : Text → Text} (source : Text)
      (injective : ∀ name other, Declares source name → Declares source other →
        ρ name = ρ other → name = other)
      (plain : ∀ name, Declares source name → SourceLine.PlainName (ρ name)) :
      Restyles source (renameSource ρ source)

/-! ## Line ends and silent lines -/

theorem OpensLine.exists_cut {front : Text} (h : OpensLine front) :
    ∃ before, ∀ t, Text.cut (· = '\n') (front ++ t) = before ++ Text.cut (· = '\n') t := by
  obtain rfl | ⟨s, rfl⟩ := h
  · exact ⟨[], fun t => rfl⟩
  · refine ⟨Text.cut (· = '\n') s, fun t => ?_⟩
    rw [List.append_assoc]
    exact Text.cut_append_cons (p := (· = '\n')) rfl s t

theorem cut_of_newline_not_mem {t : Text} (h : '\n' ∉ t) : Text.cut (· = '\n') t = [t] := by
  refine Text.cut_eq_singleton fun c hc => ?_
  rw [decide_eq_false_iff_not]
  rintro rfl
  exact h hc

theorem Silent.parse_eq {t : Text} (h : Silent t) : SourceLine.parse t = .idle := by
  obtain ⟨blanks, comment, rfl, hblanks, hcomment⟩ := h
  have hnil : SourceLine.stripComment comment = [] := by
    obtain rfl | ⟨s, rfl⟩ := hcomment
    · rfl
    · rfl
  rw [SourceLine.parse_eq, SourceLine.stripComment_append (SourceLine.clean_of_blank hblanks),
    hnil, List.append_nil]
  exact (SourceLine.heads_of_blank hblanks).ofText_eq

/-- With carriage returns before the line feeds the stretches between line feeds are
    the same, up to a carriage return at the end. -/
theorem cut_returns (source : Text) :
    List.Forall₂ (fun t t' => SourceLine.parse t = SourceLine.parse t')
      (Text.cut (· = '\n') source) (Text.cut (· = '\n') (returns source)) := by
  have hcut : List.Forall₂ (fun t t' => t' = t ∨ t' = t ++ ['\r'])
      (Text.cut (· = '\n') source) (Text.cut (· = '\n') (returns source)) := by
    induction source with
    | nil => exact .cons (.inl rfl) .nil
    | cons c source ih =>
      by_cases hc : c = '\n'
      · subst hc
        exact .cons (.inr rfl) ih
      · have hreturns : returns (c :: source) = c :: returns source := by
          simp [returns, hc]
        simp only [hreturns, Text.cut, hc, decide_false, Bool.false_eq_true, if_false]
        generalize Text.cut (· = '\n') source = ts at ih
        generalize Text.cut (· = '\n') (returns source) = ts' at ih
        cases ih with
        | nil => exact .nil
        | cons ht hrest => exact .cons (ht.imp (congrArg (c :: ·)) (congrArg (c :: ·))) hrest
  refine hcut.imp fun t t' ht => ?_
  obtain rfl | rfl := ht
  · rfl
  · exact SourceLine.parse_congr (Text.trim_append_blank (Text.blank_singleton rfl)).symm

/-! ## Renamed sources -/

/-- A stretch between line feeds is a line, or it says nothing. -/
theorem exists_of_mem_cut {t : Text} (h : t ∈ Text.cut (· = '\n') source) :
    SourceLine.parse t = .idle ∨
      ∃ line ∈ Text.lines source, SourceLine.parse line = SourceLine.parse t := by
  by_cases hidle : SourceLine.parse t = .idle
  · exact .inl hidle
  · have hmem : SourceLine.parse t ∈ contents (Text.cut (· = '\n') source) :=
      mem_contents.2 ⟨hidle, t, h, rfl⟩
    rw [← contents_lines] at hmem
    exact .inr (mem_contents.1 hmem).2

theorem sound_of_feed (h : feed line a = .ok () b) : (SourceLine.parse line).Sound := by
  intro mnemonic operands hi
  obtain ⟨mid, -, hinstruction⟩ := feed_eq_ok.1 h
  rw [hi] at hinstruction
  obtain ⟨op, arguments, hop, hread, -⟩ := feedInstruction_eq_ok.1 hinstruction
  exact ⟨op, arguments, hop, hread⟩

variable {statements : List Statement} {entries : List Entry}

/-- A stretch of a source that has a program is renamed well. -/
theorem Assembled.rename_spec (h : Assembled source program a statements entries)
    (hquotes : ∀ name, Declares source name → SourceLine.QuoteFree name)
    (plain : ∀ name, Declares source name → SourceLine.PlainName (ρ name)) {t : Text}
    (ht : t ∈ Text.cut (· = '\n') source) :
    (SourceLine.parse t).Recasts ρ (SourceLine.parse (SourceLine.rename ρ t)) ∧
      ∀ c ∈ SourceLine.rename ρ t, Text.isBlank c = true → c ∈ t := by
  obtain hidle | ⟨line, hline, hparse⟩ := exists_of_mem_cut ht
  · apply SourceLine.rename_spec <;> rw [hidle]
    · exact nofun
    · exact nofun
    · exact nofun
  · obtain ⟨b, c, hmeets, hfeed⟩ := exists_meets_of_mem h.accepted hline
    apply SourceLine.rename_spec <;> rw [← hparse]
    · exact sound_of_feed hfeed
    · intro label hlabel
      have hdeclares := (declares_of_mem h.accepted hline hlabel).2
      exact ⟨hquotes label hdeclares, plain label hdeclares⟩
    · intro name before href
      obtain ⟨address, hfound, -⟩ := h.slot_eq ⟨line, b, before, hmeets, href, rfl⟩
      have hdeclares : Declares source name :=
        ⟨address, (lookup_iff_defines h.accepted name address).1 hfound⟩
      exact ⟨hquotes name hdeclares, plain name hdeclares⟩

/-- The stretches of the renamed source are those of the source, each renamed. -/
theorem Assembled.cut_renameSource (h : Assembled source program a statements entries)
    (hquotes : ∀ name, Declares source name → SourceLine.QuoteFree name)
    (plain : ∀ name, Declares source name → SourceLine.PlainName (ρ name)) :
    Text.cut (· = '\n') (renameSource ρ source) =
      (Text.cut (· = '\n') source).map (SourceLine.rename ρ) := by
  refine Text.cut_intercalate (by decide) ?_ fun s hs c hc => ?_
  · rw [ne_eq, List.map_eq_nil_iff]
    exact Text.cut_ne_nil _ _
  · obtain ⟨t, ht, rfl⟩ := List.mem_map.1 hs
    rw [decide_eq_false_iff_not]
    rintro rfl
    have hmem := (h.rename_spec hquotes plain ht).2 '\n' hc rfl
    have hne := Text.not_of_mem_cut ht '\n' hmem
    simp at hne

/-! ## One program -/

/-- A source that is presented in another way says the same, up to new names. -/
theorem Restyles.exists_recasts (h : Restyles source source')
    (hassembled : Assembled source program a statements entries)
    (hquotes : ∀ name, Declares source name → SourceLine.QuoteFree name) :
    ∃ ρ, Renaming ρ (Declares source) ∧
      (∀ name, Declares source name → SourceLine.QuoteFree (ρ name)) ∧
      List.Forall₂ (SourceLine.Recasts ρ) (contents (Text.lines source))
        (contents (Text.lines source')) := by
  have hid : Renaming id (Declares source) :=
    renaming_id fun name hname => hname.ne_nil hassembled.accepted
  have hsame : ∀ lines : List Text, List.Forall₂ (fun line line' =>
      (SourceLine.parse line).Recasts id (SourceLine.parse line')) lines lines :=
    fun lines => List.forall₂_same.2 fun _ _ => .refl _
  simp only [contents_lines]
  cases h with
  | @line front t t' back opens closes newline newline' respells =>
    obtain ⟨before, hbefore⟩ := opens.exists_cut
    obtain ⟨after, hafter⟩ := Text.exists_cut_append closes
    have hcut : ∀ {u : Text}, '\n' ∉ u →
        Text.cut (· = '\n') (front ++ u ++ back) = before ++ u :: after := by
      intro u hu
      rw [List.append_assoc, hbefore, hafter, cut_of_newline_not_mem hu]
      rfl
    refine ⟨id, hid, hquotes, ?_⟩
    rw [hcut newline, hcut newline']
    exact recasts_contents (List.rel_append (hsame before) (.cons respells.recasts (hsame after)))
  | @above front t back opens newline silent =>
    obtain ⟨before, hbefore⟩ := opens.exists_cut
    refine ⟨id, hid, hquotes, ?_⟩
    rw [List.append_assoc, hbefore, hbefore, Text.cut_append_cons (p := (· = '\n')) rfl,
      cut_of_newline_not_mem newline, contents_append, contents_append, List.singleton_append,
      contents_cons_of_idle silent.parse_eq]
    exact forall₂_recasts_id _
  | @below front t back closes newline silent =>
    obtain ⟨after, hafter⟩ := Text.exists_cut_append closes
    refine ⟨id, hid, hquotes, ?_⟩
    rw [List.append_assoc, List.cons_append, Text.cut_append_cons (p := (· = '\n')) rfl, hafter,
      hafter, cut_of_newline_not_mem newline, contents_append, contents_append,
      List.singleton_append, contents_cons_of_idle silent.parse_eq]
    exact forall₂_recasts_id _
  | returns =>
    refine ⟨id, hid, hquotes, recasts_contents ((cut_returns source).imp fun t t' h => ?_)⟩
    rw [h]
  | rename _ injective plain =>
    refine ⟨_, ⟨injective, fun name hname => (plain name hname).word.1⟩,
      fun name hname => (plain name hname).clean.quoteFree, ?_⟩
    rw [hassembled.cut_renameSource hquotes plain]
    apply recasts_contents
    rw [List.forall₂_map_right_iff]
    exact List.forall₂_same.2 fun t ht => (hassembled.rename_spec hquotes plain ht).1

/-- Every presentation of a source has its program, if no label has a quote in its
    name. -/
theorem assemble_of_restyles (h : assemble source = .ok program)
    (hquotes : ∀ name address, Defines source name address → SourceLine.QuoteFree name)
    (hrestyles : Relation.ReflTransGen Restyles source source') :
    assemble source' = .ok program := by
  -- The names that change on the way have no quotes either.
  suffices assemble source' = .ok program ∧
      ∀ name, Declares source' name → SourceLine.QuoteFree name from this.1
  induction hrestyles with
  | refl => exact ⟨h, fun name ⟨address, hdefines⟩ => hquotes name address hdefines⟩
  | tail _ hstep ih =>
    obtain ⟨hmid, hquotes'⟩ := ih
    obtain ⟨a, _, hassembled⟩ := assembled_statements hmid
    obtain ⟨ρ, hρ, hplain, hcontents⟩ := hstep.exists_recasts hassembled hquotes'
    refine ⟨assemble_of_recasts hmid hρ hcontents, fun name hname => ?_⟩
    obtain ⟨name, hdeclares, rfl⟩ := declares_of_recasts hassembled.accepted hcontents hname
    exact hplain name hdeclares

/-- Another name for `HALT`, other line ends and another name for the label. -/
theorem assemble_of_restyles_loop :
    let source := "loop: SETI $A %loop\nEXIT 0".toList
    let source' := "top: SETI $A %top\r\nhalt 0".toList
    let program : Bytes := [13, 0, 0, 0, 0, 0, 0, 0, 0, 0, 0, 0]
    assemble source = .ok program ∧ Relation.ReflTransGen Restyles source source' ∧
      assemble source' = .ok program := by
  intro source source' program
  let halted := "loop: SETI $A %loop\nhalt 0".toList
  let returned := "loop: SETI $A %loop\r\nhalt 0".toList
  have h : assemble source = .ok program := by decide +kernel
  have hreturned : assemble returned = .ok program := by decide +kernel
  have hnames : ∀ s : Text, assemble s = .ok program →
      (match ofSource s with | .ok _ a | .error _ a => a.labels.map Prod.fst) = ["loop".toList] →
      ∀ name, Declares s name → name = "loop".toList := by
    rintro s hs hlabels name ⟨address, hdefines⟩
    obtain ⟨a, _, hassembled⟩ := assembled_statements hs
    rw [hassembled.accepted] at hlabels
    change a.labels.map Prod.fst = _ at hlabels
    have hmem := mem_labels_of_defines hassembled.accepted hdefines
    rw [hlabels] at hmem
    exact List.mem_singleton.1 hmem
  have hquotes : ∀ name address, Defines source name address → SourceLine.QuoteFree name := by
    intro name address hdefines
    rw [hnames source h (by decide +kernel) name ⟨address, hdefines⟩]
    decide
  have hline : Restyles source halted := by
    have hrespells : SourceLine.Respells ([] ++ "EXIT".toList ++ " 0".toList)
        ([] ++ "halt".toList ++ " 0".toList) := by
      have hnamed : Opcode.ofMnemonic? "EXIT".toList = some .halt := by decide
      exact .mnemonic .nil nofun hnamed (.inr (by decide)) (.inr ⟨' ', ['0'], rfl, .inl rfl⟩)
    have hopens : OpensLine "loop: SETI $A %loop\n".toList :=
      .inr ⟨"loop: SETI $A %loop".toList, rfl⟩
    exact .line hopens (.inl rfl) (by decide) (by decide) hrespells
  have hreturns : Restyles halted returned := .returns halted
  have hrename : Restyles returned source' := by
    have hnames' := hnames returned hreturned (by decide +kernel)
    have hsource' : renameSource (fun _ => "top".toList) returned = source' := by decide +kernel
    have htop : Listing.Word "top".toList := ⟨by decide, List.all_eq_true.1 (by decide)⟩
    rw [← hsource']
    refine .rename returned (fun name other hname hother _ => ?_) fun _ _ => ?_
    · rw [hnames' name hname, hnames' other hother]
    · exact ⟨htop.isWord, by decide, SourceLine.clean_of_word htop⟩
  have hrestyles : Relation.ReflTransGen Restyles source source' :=
    ((Relation.ReflTransGen.single hline).tail hreturns).tail hrename
  exact ⟨h, hrestyles, assemble_of_restyles h hquotes hrestyles⟩

end Assembly

end StackMachine
