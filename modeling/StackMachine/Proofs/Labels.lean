-- SUMMARY: Label references are assembled as if the addresses of the labels had been written.
import StackMachine.Proofs.Resolution

/-!
# Labels

Every slot of a label reference holds the offset that the assembly had when it
came to the line that defines the label. Rewriting the references as addresses
changes nothing in the program, provided that no label has a quote in its name:
the code of a line with a reference then has no quotes at all, so the comment
still begins where it did.
-/

namespace StackMachine

open SourceLine (QuoteFree)

/-! ## Names without quotes -/

theorem quoteFree_of_map_toUpper {t : Text} (h : QuoteFree (t.map Char.toUpper)) :
    QuoteFree t := by
  intro c hc
  have hupper := h c.toUpper (List.mem_map_of_mem hc)
  cases hquote : SourceLine.isQuote c with
  | false => rfl
  | true =>
    have hsame : c.toUpper = c := by
      simp only [SourceLine.isQuote, Bool.or_eq_true, decide_eq_true_eq] at hquote
      rcases hquote with rfl | rfl <;> decide
    rw [hsame, hquote] at hupper
    cases hupper

theorem Opcode.quoteFree_of_ofMnemonic? {name : Text} {op : Opcode}
    (h : ofMnemonic? name = some op) : QuoteFree name := by
  apply quoteFree_of_map_toUpper
  unfold ofMnemonic? at h
  dsimp only at h
  split at h
  · rename_i hexit
    rw [hexit]
    decide
  · have hname := List.find?_some h
    rw [decide_eq_true_eq] at hname
    rw [← hname]
    cases op <;> decide

theorem Register.quoteFree_of_ofName? {name : Text} {r : Register} (h : ofName? name = some r) :
    QuoteFree name := by
  apply quoteFree_of_map_toUpper
  have hname := List.find?_some h
  rw [decide_eq_true_eq] at hname
  rw [← hname]
  clear h hname
  cases r with
  | general i => revert i; decide
  | pc | sp | fp | rt => decide

namespace Argument

theorem Reads.quoteFree_of_register {kind : OperandKind} {t : Text} {r : Register}
    (h : Reads kind t (.operand (.register r))) : QuoteFree t := by
  cases h with
  | register named =>
    intro c hc
    rcases List.mem_cons.1 hc with rfl | hc
    · rfl
    · exact Register.quoteFree_of_ofName? named c hc

theorem Reads.quoteFree_of_reference {kind : OperandKind} {t name : Text}
    (h : Reads kind t (.reference name)) (hname : QuoteFree name) : QuoteFree t := by
  cases h with
  | reference _ =>
    intro c hc
    rcases List.mem_cons.1 hc with rfl | hc
    · rfl
    · exact hname c hc

end Argument

namespace Assembly

variable {a b c : Assembly} {line line' mnemonic operands : Text} {lines lines' : List Text}
  {s : Statement} {labels : Labels}

/-- The code of a line with a reference has no quotes if its labels and the one
    it refers to have none. -/
theorem Carries.quoteFree_code {name : Text} {registers : List Register}
    (h : a.Carries line mnemonic operands s)
    (harguments : s.arguments = (registers.map .register).map .operand ++ [.reference name])
    (hstring : .string ∉ s.opcode.layout.kinds)
    (hlabels : ∀ label ∈ (SourceLine.parse line).labels, QuoteFree label)
    (hname : QuoteFree name) : QuoteFree (SourceLine.code line) := by
  obtain ⟨parts, hsplit, hreads⟩ := Argument.readAll_eq_none.1 h.arguments
  have hwords : ∀ w ∈ Text.words operands, QuoteFree w := by
    intro w hw
    rw [← Argument.map_snd_of_split hsplit hstring] at hw
    obtain ⟨part, hpart, rfl⟩ := List.mem_map.1 hw
    obtain ⟨argument, hargument, hread⟩ := exists_of_forall₂ hreads hpart
    rw [harguments, List.map_map, List.mem_append] at hargument
    rcases hargument with hregister | hreference
    · obtain ⟨r, -, rfl⟩ := List.mem_map.1 hregister
      exact hread.quoteFree_of_register
    · rw [List.mem_singleton] at hreference
      subst hreference
      exact hread.quoteFree_of_reference hname
  have hne : Text.words operands ≠ [] := by
    intro hnil
    rw [← Argument.map_snd_of_split hsplit hstring, List.map_eq_nil_iff] at hnil
    subst hnil
    rw [List.forall₂_nil_left_iff, harguments] at hreads
    simp at hreads
  apply SourceLine.quoteFree_code
  exact SourceLine.quoteFree_of_ofText h.instruction hne hlabels
    (Opcode.quoteFree_of_ofMnemonic? h.opcode) hwords

/-! ## Feeding rewritten lines -/

theorem feed_congr (h : SourceLine.parse line = SourceLine.parse line') :
    feed line = feed line' := by
  rw [feed, feed, h]

theorem forM_define_settle {names : List Text} (h : names.forM define a = .ok () b) :
    names.forM define (a.settle labels) = .ok () (b.settle labels) := by
  induction names generalizing a with
  | nil =>
    cases h
    rfl
  | cons name names ih =>
    obtain ⟨mid, hdefine, hrest⟩ := forM_cons_eq_ok.1 h
    obtain ⟨hne, hnew, rfl⟩ := define_eq_ok.1 hdefine
    exact forM_cons_eq_ok.2 ⟨_, define_eq_ok.2 ⟨hne, hnew, rfl⟩, ih hrest⟩

theorem emit_settle {op : Opcode} {arguments : List Argument} (h : emit op arguments a = .ok () b) :
    emit op (arguments.map (Argument.settle labels)) (a.settle labels) =
      .ok () (b.settle labels) := by
  cases h
  have hlength : ((arguments.map (Argument.settle labels)).flatMap Argument.bytes).length =
      (arguments.flatMap Argument.bytes).length := by
    rw [List.flatMap_map, List.length_flatMap, List.length_flatMap]
    simp only [Argument.length_bytes_settle]
  simp only [emit, settle, Array.map_push, Statement.settle, Statement.bytes, List.length_cons,
    hlength]

theorem resolve_of_none (h : (SourceLine.parse line).reference? = none) :
    SourceLine.resolve labels line = line := by
  rw [SourceLine.resolve, h]

theorem resolve_of_some {name : Text} {before address : Nat}
    (h : (SourceLine.parse line).reference? = some (name, before))
    (hfound : labels.lookup name = some address) :
    SourceLine.resolve labels line =
      SourceLine.replaceLast line ('%' :: name).length (Decimal.ofNat address) := by
  simp only [SourceLine.resolve, h, hfound, List.length_cons]

/-- A line with a reference has an address for its last operand. -/
theorem Carries.last_of_reference? {name : Text} {before : Nat}
    (h : a.Carries line mnemonic operands s)
    (href : (SourceLine.parse line).reference? = some (name, before)) :
    s.opcode.layout.addressOffset? = some before ∧
      (Text.words operands).getLast? = some ('%' :: name) := by
  rw [h.reference?_eq] at href
  obtain ⟨offset, hoffset, hlast⟩ := Option.bind_eq_some_iff.1 href
  split at hlast
  · rename_i hwords
    cases hlast
    exact ⟨hoffset, hwords⟩
  · cases hlast

/-- Feeding a rewritten line adds the settled statement. -/
theorem feed_resolve (h : feed line a = .ok () b)
    (hlabels : ∀ label ∈ (SourceLine.parse line).labels, QuoteFree label)
    (hname : ∀ name before, (SourceLine.parse line).reference? = some (name, before) →
      QuoteFree name ∧ ∃ address : Nat, labels.lookup name = some address ∧ Slot.Fits address) :
    feed (SourceLine.resolve labels line) (a.settle labels) = .ok () (b.settle labels) := by
  obtain ⟨mid, hdefine, hinstruction⟩ := feed_eq_ok.1 h
  have hdefine' : (SourceLine.parse line).labels.forM define (a.settle labels).nextLine =
      .ok () (mid.settle labels) := forM_define_settle hdefine
  cases hi : (SourceLine.parse line).instruction with
  | none =>
    rw [hi] at hinstruction
    subst hinstruction
    have hnone : (SourceLine.parse line).reference? = none := by
      rw [SourceLine.reference?, hi]
      rfl
    rw [resolve_of_none hnone]
    refine feed_eq_ok.2 ⟨b.settle labels, hdefine', ?_⟩
    rw [hi]
  | some i =>
    obtain ⟨mnemonic, operands⟩ := i
    rw [hi] at hinstruction
    obtain ⟨op, arguments, hop, hread, hemit⟩ := feedInstruction_eq_ok.1 hinstruction
    have hcarries : a.Carries line mnemonic operands ⟨a.line + 1, a.size, op, arguments⟩ :=
      ⟨hi, hop, hread, rfl⟩
    have hshape : Argument.Shape (SourceLine.parse line).reference? arguments := hcarries.shape
    have hemit' := @emit_settle _ _ labels _ _ hemit
    cases hshape with
    | plain os hnone =>
      rw [Argument.map_settle_operands] at hemit'
      rw [resolve_of_none hnone]
      refine feed_eq_ok.2 ⟨mid.settle labels, hdefine', ?_⟩
      rw [hi]
      exact feedInstruction_eq_ok.2 ⟨op, _, hop, hread, hemit'⟩
    | @referring registers name hsome =>
      obtain ⟨hfree, address, hfound, hfits⟩ := hname name _ hsome
      -- The reference is the last word of the code, and without quotes in the code
      -- the comment begins where it did when digits take the place of that word.
      obtain ⟨hoffset, hlast⟩ := hcarries.last_of_reference? hsome
      have hstring : .string ∉ op.layout.kinds := by
        obtain ⟨n, -, hkinds⟩ := Layout.kinds_of_addressOffset? hoffset
        rw [hkinds]
        simp
      have hquotes := hcarries.quoteFree_code rfl hstring hlabels hfree
      have hsemicolon : ';' ∉ Decimal.ofNat address := fun hmem =>
        Decimal.ne_of_mem_ofNat hmem (by decide) rfl
      obtain ⟨before, operands', hbefore, hparse, hafter⟩ :=
        SourceLine.parse_replaceLast hquotes hi hlast (Decimal.isWord_ofNat address)
          (Decimal.quoteFree_ofNat address) hsemicolon
      have hnumber : Argument.Reads .address (Decimal.ofNat address)
          (.operand (.integer address)) := by
        refine .address (fun name hpercent => ?_) (Decimal.parse?_ofNat hfits) hfits
        have hmem : '%' ∈ Decimal.ofNat address := by
          rw [hpercent]
          exact List.mem_cons_self
        exact Decimal.ne_of_mem_ofNat hmem (by decide) rfl
      have hread' := Argument.readAll_append hoffset hread hbefore hafter hnumber
      rw [List.map_append, Argument.map_settle_operands, List.map_singleton,
        Argument.settle_reference hfound] at hemit'
      rw [resolve_of_some hsome hfound]
      refine feed_eq_ok.2 ⟨mid.settle labels, ?_, ?_⟩
      · rw [hparse]
        exact hdefine'
      · rw [hparse]
        exact feedInstruction_eq_ok.2 ⟨op, _, hop, hread', hemit'⟩

/-- Feeding all rewritten lines adds all settled statements. -/
theorem forM_resolve (h : lines.forM feed a = .ok () c)
    (hlines : List.Forall₂ (fun line line' => ∃ t, SourceLine.parse line = SourceLine.parse t ∧
      SourceLine.parse line' = SourceLine.parse (SourceLine.resolve labels t)) lines lines')
    (hlabels : ∀ line b, Meets a lines line b →
      ∀ label ∈ (SourceLine.parse line).labels, QuoteFree label)
    (hnames : ∀ line b, Meets a lines line b →
      ∀ name before, (SourceLine.parse line).reference? = some (name, before) →
        QuoteFree name ∧ ∃ address : Nat, labels.lookup name = some address ∧ Slot.Fits address) :
    lines'.forM feed (a.settle labels) = .ok () (c.settle labels) := by
  induction hlines generalizing a with
  | nil =>
    cases h
    rfl
  | @cons line line' lines lines' hline _ ih =>
    obtain ⟨b, hfeed, hrest⟩ := forM_cons_eq_ok.1 h
    obtain ⟨t, ht, ht'⟩ := hline
    have hlabels' := hlabels line a .here
    have hnames' := hnames line a .here
    rw [ht] at hlabels' hnames'
    have hfeed' : feed line' (a.settle labels) = .ok () (b.settle labels) := by
      rw [feed_congr ht']
      exact feed_resolve (by rw [← feed_congr ht]; exact hfeed) hlabels' hnames'
    refine forM_cons_eq_ok.2 ⟨b.settle labels, hfeed', ih hrest ?_ ?_⟩
    · exact fun line d hmeets => hlabels line d (.there hfeed hmeets)
    · exact fun line d hmeets => hnames line d (.there hfeed hmeets)

/-- Settled statements stand for the same instructions. -/
theorem link_settle {program : Bytes} (h : a.link = .ok program) :
    (a.settle a.labels).link = .ok program := by
  obtain ⟨entries, hlinks, rfl⟩ := link_eq_ok.1 h
  refine link_eq_ok.2 ⟨entries, ?_, rfl⟩
  change List.Forall₂ (Statement.Links a.labels)
    (a.statements.map (Statement.settle a.labels)).toList entries
  rw [Array.toList_map, List.forall₂_map_left_iff]
  refine hlinks.imp fun s e he => ⟨he.offset, he.opcode, ?_⟩
  change List.Forall₂ _ (s.arguments.map (Argument.settle a.labels)) e.operands
  rw [List.forall₂_map_left_iff]
  exact he.operands.imp fun argument o ho => ho.settle

theorem settle_empty (labels : Labels) : empty.settle labels = empty := by
  simp [settle, empty]

/-! ## Programs -/

/-- The source with addresses in place of references has the same program. -/
theorem Assembled.assemble_resolveSource {source : Text} {program : Bytes}
    {statements : List Statement} {entries : List Entry}
    (h : Assembled source program a statements entries)
    (hquotes : ∀ name address, Defines source name address → QuoteFree name) :
    assemble (resolveSource a.labels source) = .ok program := by
  have hresolved : ofSource (resolveSource a.labels source) = .ok () (a.settle a.labels) := by
    have hlines := forM_resolve h.accepted (forall₂_resolveSource a.labels source) ?_ ?_
    · rw [settle_empty] at hlines
      exact hlines
    · intro line b hmeets label hlabel
      exact hquotes label _ ⟨line, b, hmeets, hlabel, rfl⟩
    · intro line b hmeets name before href
      obtain ⟨address, hfound, hfits, -⟩ := h.slot_eq ⟨line, b, before, hmeets, href, rfl⟩
      have hdefines := (lookup_iff_defines h.accepted name address).1 hfound
      exact ⟨hquotes name address hdefines, address, hfound, hfits⟩
  rw [assemble, hresolved]
  exact link_settle h.linked

/-- In the program of a source the slot of each reference encodes the address of
    the label it names, and all other bytes are those of the forward pass. If no
    label has a quote in its name, the source with the addresses written in place
    of the references has the same program. -/
theorem assemble_resolves_labels {source : Text} {program : Bytes}
    (h : assemble source = .ok program) :
    ∃ a : Assembly, ofSource source = .ok () a ∧
      (∀ name address, a.labels.lookup name = some address ↔ Defines source name address) ∧
      (∀ name offset, Refers source name offset → ∃ address : Nat, Defines source name address ∧
        Slot.encode? address = some ((program.drop offset).take Slot.width)) ∧
      program.length = a.bytes.length ∧
      (∀ i, (∀ name offset, Refers source name offset → i < offset ∨ offset + Slot.width ≤ i) →
        program[i]? = a.bytes[i]?) ∧
      ((∀ name address, Defines source name address → QuoteFree name) →
        assemble (resolveSource a.labels source) = .ok program) := by
  obtain ⟨a, statements, entries, hassembled⟩ := assembled_of_assemble h
  have hdefines := lookup_iff_defines hassembled.accepted
  refine ⟨a, hassembled.accepted, hdefines, fun name offset hrefers => ?_, hassembled.length_eq,
    fun i => hassembled.getElem?_eq, hassembled.assemble_resolveSource⟩
  obtain ⟨address, hfound, hfits, hslot⟩ := hassembled.slot_eq hrefers
  refine ⟨address, (hdefines name address).1 hfound, ?_⟩
  rw [Slot.encode?_of_fits hfits, hslot]

/-- A reference before the definition and one behind it, with a comment. -/
theorem assemble_resolves_labels_loop :
    let source := "JMP %end ; out\nagain: SETI $A %again\nend:\n".toList
    let program : Bytes := [15, 38, 0, 0, 0, 0, 0, 0, 0, 13, 0, 18, 0, 0, 0, 0, 0, 0, 0]
    assemble source = .ok program ∧ ∃ a : Assembly, ofSource source = .ok () a ∧
      assemble (resolveSource a.labels source) = .ok program := by
  intro source program
  have h : assemble source = .ok program := by decide +kernel
  have hfree : ∀ label ∈ (match ofSource source with | .ok _ a | .error _ a => a.labels),
      QuoteFree label.1 := by decide +kernel
  obtain ⟨a, hsource, hdefines, -, -, -, hresolved⟩ := assemble_resolves_labels h
  rw [hsource] at hfree
  refine ⟨h, a, hsource, hresolved fun name address hname => ?_⟩
  obtain ⟨before, after, hlabels, -⟩ := List.lookup_eq_some_iff.1 ((hdefines name address).2 hname)
  have hmem : (name, address) ∈ a.labels := by
    rw [hlabels]
    simp
  exact hfree (name, address) hmem

end Assembly

end StackMachine
