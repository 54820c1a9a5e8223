-- SUMMARY: The program of one source behind another is its own program with the addresses moved.
import StackMachine.Proofs.Placeholders
import StackMachine.Proofs.References
import StackMachine.Proofs.Relocation

/-!
# Concatenation

Two sources that define no label in common can be put one behind the other. The
program is that of the first and behind it that of the second, in which each slot
of a label reference encodes an address that is greater by the length of the first.
-/

namespace StackMachine

namespace Assembly

variable {a b c mid : Assembly} {line : Text}

/-! ## The same lines behind other code -/

/-- The label has a name, which the assembly does not know. -/
def New (a : Assembly) (name : Text) : Prop :=
  name ≠ [] ∧ a.labels.lookup name = none

/-- The assembly `c` of two sources, one behind the other. When the first one ends
    it is `mid`. -/
structure Joined (source source' : Text) (a b mid c : Assembly) : Prop where
  accepted : ofSource (source ++ '\n' :: source') = .ok () c
  behind : (Text.lines source').forM feed mid = .ok () c
  first : Mirrors id (· ≠ []) empty a mid
  start : Mirrors id a.New mid empty mid
  second : Mirrors id a.New mid b c
  new : ∀ line ∈ Text.lines source', ∀ label ∈ (SourceLine.parse line).labels, a.New label

variable {source source' : Text}

theorem exists_joined (ha : ofSource source = .ok () a) (hb : ofSource source' = .ok () b)
    (disjoint : ∀ name address address', Defines source name address →
      ¬ Defines source' name address') : ∃ mid c, Joined source source' a b mid c := by
  let front := (Text.cut (· = '\n') source).map Text.dropReturn
  have hcontents : List.Forall₂ (SourceLine.Recasts id) (contents (Text.lines source))
      (contents front) := by
    rw [contents_map_dropReturn, contents_lines]
    exact forall₂_recasts_id _
  have hempty : Mirrors id (· ≠ []) empty empty empty := mirrors_start fun _ _ => rfl
  obtain ⟨mid, hfront, hmid⟩ := hempty.forM_feed (renaming_id fun _ => id) hcontents
    (fun line hline label hlabel => (declares_of_mem ha hline hlabel).1) ha
  have hstart : Mirrors id a.New mid empty mid :=
    mirrors_start fun name hname => hmid.fresh name hname.1 hname.2
  have hnew : ∀ line ∈ Text.lines source', ∀ label ∈ (SourceLine.parse line).labels,
      a.New label := by
    intro line hline label hlabel
    obtain ⟨hne, address, hdefines⟩ := declares_of_mem hb hline hlabel
    refine ⟨hne, Option.eq_none_iff_forall_ne_some.2 fun address' hfound => ?_⟩
    exact disjoint _ _ _ ((lookup_iff_defines ha _ _).1 hfound) hdefines
  obtain ⟨c, hc, hmirrors⟩ := hstart.forM_feed (renaming_id fun _ h => h.1)
    (forall₂_recasts_id _) hnew hb
  refine ⟨mid, c, ?_, hc, hmid, hstart, hmirrors, hnew⟩
  rw [ofSource, Text.lines_append_cons]
  exact forM_append_eq_ok.2 ⟨mid, hfront, hc⟩

namespace Joined

variable (h : Joined source source' a b mid c)
include h

theorem size_eq : mid.size = a.size :=
  h.first.size.trans (Nat.zero_add _)

theorem lookup_first {name : Text} {address : Nat} (hfound : a.labels.lookup name = some address) :
    c.labels.lookup name = some address := by
  exact (lookup_of_forM h.behind name address).2 (.inl (h.first.lookup_eq hfound))

theorem lookup_second {name : Text} {address : Nat} (hfound : b.labels.lookup name = some address) :
    c.labels.lookup name = some (a.size + address) := by
  have hc := h.second.labels name address hfound
  rwa [h.size_eq] at hc

/-- The first lines of the second source are accepted alike behind the first one. -/
theorem exists_before (hb : ofSource source' = .ok () b) {before rest : List Text}
    (hsplit : Text.lines source' = before ++ rest) :
    ∃ d d', before.forM feed empty = .ok () d ∧ before.forM feed mid = .ok () d' ∧
      d'.size = a.size + d.size := by
  have hnew := h.new
  rw [ofSource, hsplit] at hb
  rw [hsplit] at hnew
  obtain ⟨d, hbefore, -⟩ := forM_append_eq_ok.1 hb
  obtain ⟨d', hbefore', hd⟩ := h.start.forM_feed (renaming_id fun _ h => h.1)
    (forall₂_recasts_id _) (fun line hline => hnew line (List.mem_append_left rest hline)) hbefore
  refine ⟨d, d', hbefore, hbefore', ?_⟩
  rw [hd.size, h.size_eq]

theorem meets_of_meets (hb : ofSource source' = .ok () b) {d : Assembly}
    (hmeets : Meets empty (Text.lines source') line d) :
    ∃ d', Meets mid (Text.lines source') line d' ∧ d'.size = a.size + d.size := by
  obtain ⟨before, rest, hsplit, hbefore⟩ := meets_iff.1 hmeets
  obtain ⟨e, d', hbefore', hd', hsize⟩ := h.exists_before hb hsplit
  rw [hbefore] at hbefore'
  cases hbefore'
  exact ⟨d', meets_iff.2 ⟨before, rest, hsplit, hd'⟩, hsize⟩

theorem exists_meets (hb : ofSource source' = .ok () b) {d' : Assembly}
    (hmeets : Meets mid (Text.lines source') line d') :
    ∃ d, Meets empty (Text.lines source') line d ∧ d'.size = a.size + d.size := by
  obtain ⟨before, rest, hsplit, hbefore⟩ := meets_iff.1 hmeets
  obtain ⟨d, e, hd, hbefore', hsize⟩ := h.exists_before hb hsplit
  rw [hbefore] at hbefore'
  cases hbefore'
  exact ⟨d, meets_iff.2 ⟨before, rest, hsplit, hd⟩, hsize⟩

/-- The statements of the second source stand behind those of the first. They have
    the bytes that they have in a program of their own. -/
theorem exists_statements :
    ∃ statements, Takes mid (Text.lines source') statements c ∧
      c.statements.toList = mid.statements.toList ++ statements ∧
      List.Forall₂ (Statement.Mirrors id mid.size) b.statements.toList statements := by
  obtain ⟨statements, htakes, hstatements⟩ := takes_of_forM h.behind
  obtain ⟨statements', hstatements', hmirrors⟩ := h.second.statements
  rw [hstatements] at hstatements'
  obtain rfl := List.append_cancel_left hstatements'
  exact ⟨statements, htakes, hstatements, hmirrors⟩

/-- The program of both sources, if their own programs have these instructions. -/
theorem link_eq {statements : List Statement} {entries entries' : List Entry}
    (hlinks : List.Forall₂ (Statement.Links a.labels) a.statements.toList entries)
    (hstatements : c.statements.toList = mid.statements.toList ++ statements)
    (hlinks' : List.Forall₂ (Statement.Links c.labels) statements entries') :
    c.link = .ok (entries.flatMap Entry.encode ++ entries'.flatMap Entry.encode) := by
  have hfirst := Statement.links_of_mirrors h.first.forall₂_statements hlinks
    fun _ _ => h.lookup_first
  refine link_eq_ok.2 ⟨entries ++ entries', ?_, List.flatMap_append.symm⟩
  rw [hstatements]
  exact List.rel_append hfirst hlinks'

/-- Linking changes the bytes of the second source in the slots of its references
    only. -/
theorem agreeExcept (hb : ofSource source' = .ok () b) {statements : List Statement}
    {entries : List Entry} (htakes : Takes mid (Text.lines source') statements c)
    (hlinks : List.Forall₂ (Statement.Links c.labels) statements entries) :
    AgreeExcept (fun i => ∃ name offset, Refers source' name offset ∧ mid.size + offset ≤ i ∧
        i < mid.size + offset + Slot.width)
      mid.size (statements.flatMap Statement.bytes) (entries.flatMap Entry.encode) := by
  refine htakes.agreeExcept hlinks fun line d' name before hmeets' href j hj => ?_
  obtain ⟨d, hmeets, hsize⟩ := h.exists_meets hb hmeets'
  refine ⟨name, d.bytes.length + before, ⟨line, d, before, hmeets, href, rfl⟩, ?_, ?_⟩ <;>
    rw [hsize, h.size_eq, sized_empty.of_meets hmeets] <;> omega

end Joined

/-! ## Programs -/

/-- The program of two sources that define no label in common, one behind the
    other, is the program of the first and behind it one that differs from the
    program of the second in the slots of its label references only. These encode
    the addresses that they encode in the program of the second, each greater by
    the length of the first. -/
theorem assemble_append_newline {program program' : Bytes}
    (h : assemble source = .ok program) (h' : assemble source' = .ok program')
    (disjoint : ∀ name address address', Defines source name address →
      ¬ Defines source' name address')
    (small : program.length + program'.length < 2 ^ 55) :
    ∃ moved : Bytes, assemble (source ++ '\n' :: source') = .ok (program ++ moved) ∧
      moved.length = program'.length ∧
      (∀ name offset, Refers source' name offset → ∃ address : Nat,
        Defines source' name address ∧
        Slot.encode? address = some ((program'.drop offset).take Slot.width) ∧
        Slot.encode? (program.length + address : Nat) =
          some ((moved.drop offset).take Slot.width)) ∧
      (∀ i, (∀ name offset, Refers source' name offset → i < offset ∨ offset + Slot.width ≤ i) →
        moved[i]? = program'[i]?) := by
  obtain ⟨a, entries, hfirst⟩ := assembled_statements h
  obtain ⟨b, entries', hsecond⟩ := assembled_statements h'
  obtain ⟨mid, c, hjoined⟩ := exists_joined hfirst.accepted hsecond.accepted disjoint
  obtain ⟨statements, htakes, hstatements, hmirrors⟩ := hjoined.exists_statements
  have hlength : program.length = a.size := by
    rw [hfirst.length_eq]
    exact (sized_empty.of_forM hfirst.accepted).symm
  have hlength' : program'.length = b.size := by
    rw [hsecond.length_eq]
    exact (sized_empty.of_forM hsecond.accepted).symm
  -- The addresses of both programs together fit a slot.
  have hlabels : ∀ name address, b.labels.lookup name = some address →
      ∃ address' : Nat, c.labels.lookup name = some address' ∧ Slot.Fits address' := by
    intro name address hfound
    refine ⟨a.size + address, hjoined.lookup_second hfound, ?_⟩
    have hb : empty.afterAll (Text.lines source') = b := afterAll_of_forM hsecond.accepted
    have hle : address ≤ b.size := by
      rw [← hb] at hfound ⊢
      exact le_size_of_lookup hfound
    exact Slot.fits_iff.2 ⟨by omega, by omega⟩
  obtain ⟨moved, hlinks⟩ := Statement.exists_links_of_mirrors hmirrors hsecond.links hlabels
  have hbytes : statements.flatMap Statement.bytes = b.bytes :=
    Statement.flatMap_bytes_of_mirrors hmirrors
  refine ⟨moved.flatMap Entry.encode, ?_, ?_, fun name offset hrefers => ?_, fun i hi => ?_⟩
  · rw [assemble, hjoined.accepted, hfirst.program_eq]
    exact hjoined.link_eq hfirst.links hstatements hlinks
  · rw [length_of_links hlinks, hbytes, hsecond.length_eq]
  · obtain ⟨address, hfound, hfits, hslot⟩ := hsecond.slot_eq hrefers
    obtain ⟨line, d, before, hmeets, href, rfl⟩ := hrefers
    obtain ⟨d', hmeets', hsize⟩ := hjoined.meets_of_meets hsecond.accepted hmeets
    obtain ⟨address', hfound', hfits', hslot'⟩ := htakes.slot_eq hlinks hmeets' href
    rw [hjoined.lookup_second hfound] at hfound'
    cases hfound'
    refine ⟨address, (lookup_iff_defines hsecond.accepted name address).1 hfound, ?_, ?_⟩
    · rw [Slot.encode?_of_fits hfits, hslot]
    · rw [hsize, hjoined.size_eq, Nat.add_sub_cancel_left, sized_empty.of_meets hmeets] at hslot'
      rw [hlength, Slot.encode?_of_fits hfits', hslot']
  · have hagree := hjoined.agreeExcept hsecond.accepted htakes hlinks
    rw [hbytes] at hagree
    rw [hsecond.getElem?_eq hi]
    refine (hagree.2 i ?_).symm
    rintro ⟨name, offset, hrefers, hle, hlt⟩
    obtain hbefore | hafter := hi name offset hrefers <;> omega

/-- A loop, and behind it two references whose addresses are moved by nine. -/
theorem assemble_append_newline_loop :
    let source := "a: JMP %a".toList
    let source' := "b: SETI $A %end\nJMP %b ; back\nend:".toList
    let program : Bytes := [15, 0, 0, 0, 0, 0, 0, 0, 0]
    let program' : Bytes := [13, 0, 38, 0, 0, 0, 0, 0, 0, 0, 15, 0, 0, 0, 0, 0, 0, 0, 0]
    assemble source = .ok program ∧ assemble source' = .ok program' ∧
      ∃ moved : Bytes, assemble (source ++ '\n' :: source') = .ok (program ++ moved) ∧
        moved.length = 19 := by
  intro source source' program program'
  have h : assemble source = .ok program := by decide +kernel
  have h' : assemble source' = .ok program' := by decide +kernel
  have hnames : (match ofSource source with | .ok _ a | .error _ a => a.labels.map Prod.fst) =
      ["a".toList] := by decide +kernel
  have hnames' : (match ofSource source' with | .ok _ a | .error _ a => a.labels.map Prod.fst) =
      ["end".toList, "b".toList] := by decide +kernel
  obtain ⟨a, _, hassembled⟩ := assembled_statements h
  obtain ⟨b, _, hassembled'⟩ := assembled_statements h'
  rw [hassembled.accepted] at hnames
  rw [hassembled'.accepted] at hnames'
  change a.labels.map Prod.fst = _ at hnames
  change b.labels.map Prod.fst = _ at hnames'
  have disjoint : ∀ name address address', Defines source name address →
      ¬ Defines source' name address' := by
    intro name address address' hdefines hdefines'
    have hmem := mem_labels_of_defines hassembled.accepted hdefines
    have hmem' := mem_labels_of_defines hassembled'.accepted hdefines'
    rw [hnames] at hmem
    rw [hnames', List.mem_singleton.1 hmem] at hmem'
    exact absurd hmem' (by decide)
  obtain ⟨moved, hmoved, hlength, -⟩ := assemble_append_newline h h' disjoint (by decide)
  exact ⟨h, h', moved, hmoved, hlength⟩

end Assembly

end StackMachine
