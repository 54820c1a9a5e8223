-- SUMMARY: A source without a program has one mistake reported: the first line refused, or the first label missing.
import StackMachine.Proofs.Labels
import StackMachine.Proofs.Placeholders

/-!
# The reported mistake

The lines of a source are taken in order, and the first that is refused ends the
assembling, so what comes after it does not matter. If none is refused, the
references are looked up in order, and the first to a label that no line defines
is the mistake. A source without either has a program.
-/

namespace StackMachine

namespace Text

/-- The text stands behind a whole line. -/
def ClosesLine (t : Text) : Prop :=
  t = [] ∨ ∃ s, t = '\n' :: s

theorem exists_cut_append {t : Text} (h : ClosesLine t) :
    ∃ more, ∀ s, cut (· = '\n') (s ++ t) = cut (· = '\n') s ++ more := by
  obtain rfl | ⟨u, rfl⟩ := h
  · exact ⟨[], fun s => by simp⟩
  · exact ⟨cut (· = '\n') u, fun s => cut_append_cons (p := (· = '\n')) rfl s u⟩

end Text

namespace Assembly

variable {a b c : Assembly} {line : Text} {lines before rest : List Text} {e : SyntaxError}

/-! ## Accepting and refusing -/

theorem exists_of_forM_feed_eq_error (h : lines.forM feed a = .error e c) :
    ∃ before line rest b, lines = before ++ line :: rest ∧ before.forM feed a = .ok () b ∧
      feed line b = .error e c := by
  induction lines generalizing a with
  | nil => cases h
  | cons line lines ih =>
    cases hline : feed line a with
    | error e' c' =>
      rw [forM_cons_of_error hline] at h
      cases h
      exact ⟨[], line, lines, a, rfl, rfl, hline⟩
    | ok _ b =>
      rw [forM_cons_of_ok hline] at h
      obtain ⟨before, line', rest, d, rfl, hbefore, hrefused⟩ := ih h
      exact ⟨line :: before, line', rest, d, rfl, forM_cons_eq_ok.2 ⟨b, hline, hbefore⟩,
        hrefused⟩

/-- A line is refused as the line that it is. -/
theorem line_of_feed (hbefore : before.forM feed empty = .ok () a)
    (hfeed : feed line a = .error e b) : e.line = before.length + 1 := by
  obtain hok | ⟨mistake, -, herror⟩ := feed_outcome line a
  · rw [hfeed] at hok
    cases hok
  · rw [hfeed] at herror
    cases herror
    rw [← afterAll_of_forM hbefore, line_afterAll]

/-! ## Lines and references by number -/

/-- The lines before the `n`-th, which is `line`, are all accepted, and `a` is the
    assembly after them. -/
def Arrives (lines : List Text) (n : Nat) (line : Text) (a : Assembly) : Prop :=
  ∃ before rest, lines = before ++ line :: rest ∧ n = before.length + 1 ∧
    before.forM feed empty = .ok () a

theorem arrives_concat {last : Text} {n : Nat} :
    Arrives (lines ++ [last]) n line a ↔ Arrives lines n line a ∨
      n = lines.length + 1 ∧ line = last ∧ lines.forM feed empty = .ok () a := by
  constructor
  · rintro ⟨before, rest, hsplit, hn, hbefore⟩
    obtain rfl | ⟨rest, other, rfl⟩ := List.eq_nil_or_concat rest
    · obtain ⟨rfl, hline⟩ := List.append_inj' hsplit rfl
      exact .inr ⟨hn, (List.singleton_inj.1 hline).symm, hbefore⟩
    · rw [List.concat_eq_append, ← List.cons_append, ← List.append_assoc] at hsplit
      obtain ⟨rfl, -⟩ := List.append_inj' hsplit rfl
      exact .inl ⟨before, rest, rfl, hn, hbefore⟩
  · rintro (⟨before, rest, rfl, hn, hbefore⟩ | ⟨hn, rfl, hlines⟩)
    · exact ⟨before, rest ++ [last], by simp, hn, hbefore⟩
    · exact ⟨lines, [], rfl, hn, hlines⟩

/-- The `n`-th line refers to the label, and its slot begins at the offset. -/
def RefersAt (lines : List Text) (n : Nat) (name : Text) (offset : Nat) : Prop :=
  ∃ line a front, Arrives lines n line a ∧
    (SourceLine.parse line).reference? = some (name, front) ∧ offset = a.bytes.length + front

theorem referencesFrom_operands (n offset : Nat) (operands : List Operand)
    (rest : List Argument) :
    Statement.referencesFrom n offset (operands.map .operand ++ rest) =
      Statement.referencesFrom n (offset + (operands.flatMap Operand.encode).length) rest := by
  induction operands generalizing offset with
  | nil => rfl
  | cons o operands ih =>
    rw [List.map_cons, List.cons_append, Statement.referencesFrom, ih, List.flatMap_cons,
      List.length_append, Nat.add_assoc]

/-- The references of a statement are the one that its line has, if any. -/
theorem Carries.references_eq {mnemonic operands : Text} {s : Statement}
    (h : a.Carries line mnemonic operands s) :
    s.references = ((SourceLine.parse line).reference?.map fun (name, front) =>
      ⟨name, s.line, s.offset + front⟩).toList := by
  have hshape := h.shape
  unfold Statement.references
  generalize s.arguments = arguments at hshape
  cases hshape with
  | plain os hnone =>
    have hfrom := referencesFrom_operands s.line (s.offset + 1) os []
    rw [List.append_nil] at hfrom
    rw [hfrom, hnone]
    rfl
  | @referring registers name hsome =>
    have hlength : ((registers.map Operand.register).flatMap Operand.encode).length =
        registers.length := by
      simp [List.flatMap_map, Operand.encode]
    rw [referencesFrom_operands, hlength, hsome, Nat.add_assoc]
    rfl

/-- An accepted line adds the reference that it has, if any. -/
theorem references_of_feed (h : feed line a = .ok () b) :
    b.references = a.references ++ ((SourceLine.parse line).reference?.map
      fun (name, front) => ⟨name, a.line + 1, a.size + front⟩).toList := by
  obtain ⟨mid, hlabels, hinstruction⟩ := feed_eq_ok.1 h
  obtain ⟨hline, hstatements, hsize, -⟩ := forM_define_eq_ok hlabels
  cases hi : (SourceLine.parse line).instruction with
  | none =>
    rw [hi] at hinstruction
    have hnone : (SourceLine.parse line).reference? = none := by
      rw [SourceLine.reference?, hi]
      rfl
    rw [hinstruction, references, hstatements, hnone]
    exact (List.append_nil _).symm
  | some i =>
    rw [hi] at hinstruction
    obtain ⟨op, arguments, hop, hread, hemit⟩ := feedInstruction_eq_ok.1 hinstruction
    have hcarries : mid.Carries line i.1 i.2 ⟨mid.line, mid.size, op, arguments⟩ :=
      ⟨hi, hop, hread, rfl⟩
    have hreferences := hcarries.references_eq
    simp only [hline, hsize] at hreferences
    cases hemit
    simp only [references, Array.toList_push, hstatements, List.flatMap_append,
      List.flatMap_singleton, hline, hsize]
    exact congrArg _ hreferences

/-- The references of accepted lines are those that the lines have. -/
theorem mem_references_iff (h : lines.forM feed empty = .ok () a) (r : Reference) :
    r ∈ a.references ↔ RefersAt lines r.line r.label r.offset := by
  induction lines using List.reverseRecOn generalizing a with
  | nil =>
    cases h
    constructor
    · exact nofun
    · rintro ⟨line, b, front, ⟨before, rest, hnil, -⟩, -⟩
      simp at hnil
  | append_singleton lines last ih =>
    obtain ⟨b, hlines, hlast⟩ := forM_append_eq_ok.1 h
    obtain ⟨c, hfeed, hnil⟩ := forM_cons_eq_ok.1 hlast
    cases hnil
    have hline : b.line = lines.length := by
      rw [← afterAll_of_forM hlines, line_afterAll]
    have hsize : b.size = b.bytes.length := sized_empty.of_forM hlines
    rw [references_of_feed hfeed, List.mem_append, ih hlines]
    unfold RefersAt
    simp only [arrives_concat, or_and_right, exists_or, hline, hsize]
    refine or_congr_right ?_
    constructor
    · intro hr
      obtain ⟨⟨name, front⟩, href, rfl⟩ := Option.map_eq_some_iff.1 (Option.mem_toList.1 hr)
      exact ⟨last, b, front, ⟨rfl, rfl, hlines⟩, href, rfl⟩
    · rintro ⟨line, c, front, ⟨hn, rfl, hlines'⟩, href, hoffset⟩
      rw [hlines] at hlines'
      cases hlines'
      rw [href, Option.mem_toList]
      simp only [Option.map_some, ← hn, ← hoffset]

/-! ## The first refused line -/

/-- The first lines of the source are accepted, and the next one is refused. -/
def Refused (source : Text) (e : SyntaxError) : Prop :=
  ∃ line a b, Arrives (Text.lines source) e.line line a ∧ feed line a = .error e b

variable {source front rest rest' : Text}

theorem ofSource_eq_error_iff : (∃ b, ofSource source = .error e b) ↔ Refused source e := by
  constructor
  · rintro ⟨b, h⟩
    obtain ⟨before, line, rest, a, hsplit, hbefore, hfeed⟩ := exists_of_forM_feed_eq_error h
    exact ⟨line, a, b, ⟨before, rest, hsplit, line_of_feed hbefore hfeed, hbefore⟩, hfeed⟩
  · rintro ⟨line, a, b, ⟨before, rest, hsplit, -, hbefore⟩, hfeed⟩
    refine ⟨b, ?_⟩
    rw [ofSource, hsplit, forM_append_of_ok hbefore]
    exact forM_cons_of_error hfeed

theorem forM_feed_dropReturn (lines rest : List Text) :
    (lines.map Text.dropReturn ++ rest).forM feed = (lines ++ rest).forM feed := by
  induction lines with
  | nil => rfl
  | cons line lines ih =>
    change (feed (Text.dropReturn line) >>= fun _ =>
      (lines.map Text.dropReturn ++ rest).forM feed) =
        (feed line >>= fun _ => (lines ++ rest).forM feed)
    rw [ih, feed_congr (SourceLine.parse_congr (Text.trim_dropReturn line))]

/-- A source is refused as the stretches between its line feeds are. What is no
    line behind the last line feed could not be refused. -/
theorem ofSource_eq_error_iff_cut :
    ofSource source = .error e b ↔ (Text.cut (· = '\n') source).forM feed empty = .error e b := by
  obtain ⟨init, last, hcut⟩ :=
    List.eq_nil_or_concat (Text.cut (· = '\n') source) |>.resolve_left (Text.cut_ne_nil _ _)
  rw [List.concat_eq_append] at hcut
  rw [ofSource, Text.lines, hcut, Text.linesOf_append (List.cons_ne_nil last []),
    forM_feed_dropReturn]
  by_cases hlast : last = []
  · subst hlast
    rw [Text.linesOf, if_pos rfl, List.append_nil]
    refine ⟨forM_append_of_error, fun h => ?_⟩
    cases hinit : init.forM feed empty with
    | error e' c => rw [← h, forM_append_of_error hinit]
    | ok u c =>
      rw [forM_append_of_ok hinit] at h
      cases h
  · rw [Text.linesOf, if_neg hlast]

/-- What stands behind the refused line may be anything else. -/
theorem Refused.assemble_eq (h : Refused (front ++ rest) e)
    (hline : front.count '\n' + 1 = e.line) (hrest : Text.ClosesLine rest)
    (hrest' : Text.ClosesLine rest') : assemble (front ++ rest') = .error e := by
  obtain ⟨b, hb⟩ := ofSource_eq_error_iff.2 h
  obtain ⟨more, hmore⟩ := Text.exists_cut_append hrest
  obtain ⟨more', hmore'⟩ := Text.exists_cut_append hrest'
  rw [ofSource_eq_error_iff_cut, hmore] at hb
  obtain ⟨before, line, after, a, hsplit, hbefore, hfeed⟩ := exists_of_forM_feed_eq_error hb
  have hlength : (Text.cut (· = '\n') front).length = (before ++ [line]).length := by
    rw [Text.length_cut, List.length_append, List.length_singleton, ← line_of_feed hbefore hfeed,
      ← hline, List.count]
    congr 1
  rw [List.append_cons] at hsplit
  obtain ⟨hfront, -⟩ := List.append_inj hsplit hlength
  have hrefused : (before ++ [line]).forM feed empty = .error e b := by
    rw [forM_append_of_ok hbefore]
    exact forM_cons_of_error hfeed
  have hsource : ofSource (front ++ rest') = .error e b := by
    rw [ofSource_eq_error_iff_cut, hmore', hfront]
    exact forM_append_of_error hrefused
  rw [assemble, hsource]

theorem Refused.local (h : Refused source e) : e.mistake.Local := by
  obtain ⟨line, a, b, -, hfeed⟩ := h
  obtain hok | ⟨mistake, hlocal, herror⟩ := feed_outcome line a
  · rw [hfeed] at hok
    cases hok
  · rw [hfeed] at herror
    cases herror
    exact hlocal

/-! ## The first missing label -/

/-- All lines of the source are accepted. The `n`-th refers to the label, which no
    line defines, and every reference before that one is to a label that some line
    defines. -/
def Lacks (source : Text) (n : Nat) (name : Text) : Prop :=
  (∃ a, ofSource source = .ok () a) ∧ (∀ address, ¬ Defines source name address) ∧
    ∃ offset, RefersAt (Text.lines source) n name offset ∧
      ∀ m other offset', RefersAt (Text.lines source) m other offset' → offset' < offset →
        ∃ address, Defines source other address

variable {n : Nat} {name : Text}

/-- Of two references the one with the smaller offset comes first. -/
theorem mem_before_iff {before rest : List Reference} {r r' : Reference}
    (h : (before ++ r :: rest).Pairwise Reference.Before) :
    r' ∈ before ↔ r' ∈ before ++ r :: rest ∧ r'.offset < r.offset := by
  obtain ⟨-, hafter, hbefore⟩ := List.pairwise_append.1 h
  unfold Reference.Before Slot.width at hafter hbefore
  constructor
  · intro hr'
    have hle := hbefore r' hr' r List.mem_cons_self
    exact ⟨List.mem_append_left _ hr', by omega⟩
  · rintro ⟨hr', hlt⟩
    obtain hr' | hr' := List.mem_append.1 hr'
    · exact hr'
    · obtain rfl | hr' := List.mem_cons.1 hr'
      · exact absurd hlt (Nat.lt_irrefl _)
      · have hle := (List.pairwise_cons.1 hafter).1 r' hr'
        omega

/-- Linking fails as the first reference to a label that no line defines. -/
theorem link_eq_error_iff (h : ofSource source = .ok () a) (hsmall : a.bytes.length < 2 ^ 55) :
    a.link = .error e ↔ ∃ name, e.mistake = .undefinedLabel name ∧ Lacks source e.line name := by
  have hlabels := lookup_iff_defines h
  have hreferences := mem_references_iff h
  obtain rfl := afterAll_of_forM h
  have hpairwise : (empty.afterAll (Text.lines source)).references.Pairwise Reference.Before :=
    (laid_afterAll (Text.lines source)).pairwise
  have hfits : ∀ name address,
      (empty.afterAll (Text.lines source)).labels.lookup name = some address →
        Slot.Fits address := by
    rw [← sized_afterAll] at hsmall
    exact fun _ _ => fits_afterAll hsmall
  have hfill := error_iff_of_fill? (fill?_afterAll (Text.lines source)) e
  simp only [slot_eq_ok_iff hfits, slot_eq_error_iff hfits, hlabels] at hfill
  rw [hfill]
  constructor
  · rintro ⟨before, r, rest, hsplit, hbefore, hnone, rfl⟩
    rw [hsplit] at hpairwise
    refine ⟨r.label, rfl, ⟨_, h⟩, fun address hdefines => ?_, r.offset, ?_, ?_⟩
    · rw [← hlabels, hnone] at hdefines
      cases hdefines
    · rw [← hreferences, hsplit]
      exact List.mem_append_right _ List.mem_cons_self
    · intro m other offset' hrefers hlt
      have hmem := (hreferences ⟨other, m, offset'⟩).2 hrefers
      rw [hsplit] at hmem
      exact hbefore _ ((mem_before_iff hpairwise).2 ⟨hmem, hlt⟩)
  · obtain ⟨line, mistake⟩ := e
    rintro ⟨name, rfl, -, hundefined, offset, hrefers, hearlier⟩
    obtain ⟨before, rest, hsplit⟩ :=
      List.append_of_mem ((hreferences ⟨name, line, offset⟩).2 hrefers)
    rw [hsplit] at hpairwise
    refine ⟨before, _, rest, hsplit, fun r' hr' => ?_, ?_, rfl⟩
    · obtain ⟨hmem, hlt⟩ := (mem_before_iff hpairwise).1 hr'
      rw [← hsplit, hreferences] at hmem
      exact hearlier _ _ _ hmem hlt
    · rw [Option.eq_none_iff_forall_ne_some]
      intro address hfound
      exact hundefined address ((hlabels _ _).1 hfound)

/-! ## The reported mistake -/

/-- Take a source whose program is not too long for its addresses. A mistake other
    than a missing label is reported just if its line is the first that is
    refused, and then whatever stands behind that line has no part in it. A missing
    label is reported just if all lines are accepted, for the first reference to a
    label that no line defines. A source without either mistake has a program. -/
theorem assemble_reports_first_mistake
    (small : ∀ a, ofSource source = .ok () a → a.bytes.length < 2 ^ 55) :
    (∀ e : SyntaxError, (∀ name, e.mistake ≠ .undefinedLabel name) →
      (assemble source = .error e ↔ Refused source e)) ∧
    (∀ e front rest rest', Refused source e → source = front ++ rest →
      front.count '\n' + 1 = e.line → Text.ClosesLine rest → Text.ClosesLine rest' →
        assemble (front ++ rest') = .error e) ∧
    (∀ n name, assemble source = .error ⟨n, .undefinedLabel name⟩ ↔ Lacks source n name) ∧
    ((∀ e, ¬ Refused source e) → (∀ n name, ¬ Lacks source n name) →
      ∃ program, assemble source = .ok program) := by
  have hlater : ∀ e front rest rest', Refused source e → source = front ++ rest →
      front.count '\n' + 1 = e.line → Text.ClosesLine rest → Text.ClosesLine rest' →
        assemble (front ++ rest') = .error e := by
    rintro e front rest rest' h rfl
    exact h.assemble_eq
  cases hsource : ofSource source with
  | error e b =>
    have hrefused : Refused source e := ofSource_eq_error_iff.1 ⟨b, hsource⟩
    have hassemble : assemble source = .error e := by rw [assemble, hsource]
    refine ⟨fun e' _ => ?_, hlater, fun n name => ?_, fun hnone => absurd hrefused (hnone e)⟩
    · rw [hassemble, ← ofSource_eq_error_iff]
      simp [hsource]
    · rw [hassemble]
      constructor
      · intro he
        cases he
        exact absurd rfl (hrefused.local.ne name)
      · rintro ⟨⟨a, ha⟩, -⟩
        rw [hsource] at ha
        cases ha
  | ok u a =>
    have hlink := fun e : SyntaxError => link_eq_error_iff (e := e) hsource (small a hsource)
    have hassemble : assemble source = a.link := by rw [assemble, hsource]
    simp only [hassemble, hlink]
    refine ⟨fun e he => ?_, hlater, fun n name => ?_, fun _ hnone => ?_⟩
    · rw [← ofSource_eq_error_iff]
      simp [hsource, he]
    · simp
    · cases hprogram : a.link with
      | ok program => exact ⟨program, rfl⟩
      | error e =>
        obtain ⟨name, -, hlacks⟩ := (hlink e).1 hprogram
        exact absurd hlacks (hnone _ _)

/-- A label that is missing on the second line, and a refused third line that has
    another mistake behind it. -/
theorem assemble_reports_first_mistake_lines :
    let missing := "JMP %a\na: JMP %b\n".toList
    let refused := "DUP ; twice\n\nb: DUP 1\nNOPE".toList
    (∀ a, ofSource missing = .ok () a → a.bytes.length < 2 ^ 55) ∧ Lacks missing 2 "b".toList ∧
      (∀ a, ofSource refused = .ok () a → a.bytes.length < 2 ^ 55) ∧
      Refused refused ⟨3, .arity .none⟩ := by
  intro missing refused
  have hlength : ∀ a, ofSource missing = .ok () a → a.bytes.length < 2 ^ 55 := by
    have hsmall : (match ofSource missing with
        | .ok _ a | .error _ a => a.bytes.length) < 2 ^ 55 := by decide +kernel
    intro a ha
    rw [ha] at hsmall
    exact hsmall
  have hnone : ∀ a, ofSource refused = .ok () a → a.bytes.length < 2 ^ 55 := by
    have herror : (match ofSource refused with
        | .ok _ _ => true | .error _ _ => false) = false := by decide +kernel
    intro a ha
    rw [ha] at herror
    cases herror
  obtain ⟨-, -, hmissing, -⟩ := assemble_reports_first_mistake hlength
  obtain ⟨hrefused, -⟩ := assemble_reports_first_mistake hnone
  have hb : assemble missing = .error ⟨2, .undefinedLabel "b".toList⟩ := by decide +kernel
  have harity : assemble refused = .error ⟨3, .arity .none⟩ := by decide +kernel
  exact ⟨hlength, (hmissing 2 _).1 hb, hnone, (hrefused ⟨3, .arity .none⟩ nofun).1 harity⟩

end Assembly

end StackMachine
