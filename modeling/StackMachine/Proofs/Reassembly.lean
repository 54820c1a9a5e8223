-- SUMMARY: Assembling the listing of a program gives the program, with its slots in their shortest form.
import StackMachine.Proofs.ListingSource
import StackMachine.Proofs.Spelling

/-!
# Assembling a listing

The lines of a listing are taken one after the other. The label of each is new,
because its offset is past those of the lines before it, and the statement stands
for the instruction that was listed. So the listing assembles to the instructions
encoded again, which is the program up to the slots of its integers.
-/

namespace StackMachine

namespace Assembly

variable {a : Assembly} {e : Entry} {entries : List Entry} {stop : Nat}

/-- The statement of a listed instruction. -/
def listed (a : Assembly) (e : Entry) : Statement :=
  ⟨a.line + 1, a.size, e.opcode, e.operands.map .operand⟩

theorem bytes_listed (a : Assembly) (e : Entry) : (a.listed e).bytes = e.encode := by
  rw [Statement.bytes, listed, List.flatMap_map]
  rfl

theorem links_listed (labels : Labels) (h : e.offset = a.size) :
    (a.listed e).Links labels e where
  offset := h
  opcode := rfl
  operands := by
    change List.Forall₂ (Argument.Stands labels) (e.operands.map .operand) e.operands
    rw [List.forall₂_map_left_iff, List.forall₂_same]
    exact fun o _ => .operand o

/-- A line of a listing defines its offset as a label and adds its instruction. -/
theorem feed_render (h : e.WellFormed) (hplain : ∀ o ∈ e.operands, o.Plain)
    (hnew : a.labels.lookup (Decimal.padded e.offset) = none) :
    feed e.render a = .ok () {
      line := a.line + 1
      statements := a.statements.push (a.listed e)
      size := a.size + e.width
      labels := (Decimal.padded e.offset, a.size) :: a.labels } := by
  rw [feed_eq_ok, Entry.parse_render h hplain]
  refine ⟨{ a.nextLine with labels := (Decimal.padded e.offset, a.size) :: a.labels },
    forM_cons_eq_ok.2 ⟨_, define_eq_ok.2 ⟨Decimal.padded_ne_nil _, hnew, rfl⟩, rfl⟩, ?_⟩
  refine feedInstruction_eq_ok.2 ⟨e.opcode, _, Opcode.ofMnemonic?_mnemonic e.opcode,
    Argument.readAll_operandText h hplain, ?_⟩
  rw [e.width_eq, ← bytes_listed a e]
  rfl

/-- The lines of a listing are all accepted, and their statements stand for its
    instructions whatever addresses labels have. -/
theorem forM_render (htiles : Listing.Tiles a.size entries stop)
    (hforms : ∀ e ∈ entries, e.WellFormed) (hplain : ∀ e ∈ entries, ∀ o ∈ e.operands, o.Plain)
    (hnew : ∀ n, a.size ≤ n → a.labels.lookup (Decimal.padded n) = none) :
    ∃ c statements, (entries.map Entry.render).forM feed a = .ok () c ∧
      c.statements.toList = a.statements.toList ++ statements ∧
      ∀ labels, List.Forall₂ (Statement.Links labels) statements entries := by
  induction entries generalizing a with
  | nil => exact ⟨a, [], rfl, (List.append_nil _).symm, fun _ => .nil⟩
  | cons e entries ih =>
    obtain ⟨hoffset, hrest⟩ := htiles
    have hfeed := feed_render (hforms e List.mem_cons_self) (hplain e List.mem_cons_self)
      (hnew e.offset hoffset.ge)
    -- Offsets past this instruction are written differently than its own.
    obtain ⟨c, statements, hfed, hstatements, hlinks⟩ := ih (a := {
      line := a.line + 1
      statements := a.statements.push (a.listed e)
      size := a.size + e.width
      labels := (Decimal.padded e.offset, a.size) :: a.labels }) hrest
      (fun e' he' => hforms e' (List.mem_cons_of_mem e he'))
      (fun e' he' => hplain e' (List.mem_cons_of_mem e he')) (fun n hn => by
        have hlt : e.offset < n := by
          simp only [Entry.width] at hn
          omega
        have hne : Decimal.padded n ≠ Decimal.padded e.offset :=
          fun h => absurd (Decimal.padded_injective h) hlt.ne'
        rw [List.lookup_cons, beq_false_of_ne hne]
        exact hnew n (hoffset ▸ hlt.le))
    refine ⟨c, a.listed e :: statements, ?_, ?_, fun labels => ?_⟩
    · rw [List.map_cons]
      exact forM_cons_eq_ok.2 ⟨_, hfeed, hfed⟩
    · rw [hstatements, Array.toList_push, List.append_assoc]
      rfl
    · exact .cons (links_listed labels hoffset) (hlinks labels)

/-- The listing of instructions that lie end to end assembles to them. -/
theorem assemble_render (htiles : Listing.Tiles 0 entries stop)
    (hforms : ∀ e ∈ entries, e.WellFormed) (hplain : ∀ e ∈ entries, ∀ o ∈ e.operands, o.Plain) :
    assemble (['\n'].intercalate (entries.map Entry.render)) =
      .ok (entries.flatMap Entry.encode) := by
  have hlines : Text.lines (['\n'].intercalate (entries.map Entry.render)) =
      entries.map Entry.render := by
    refine Text.lines_intercalate fun line hline => ?_
    obtain ⟨e, he, rfl⟩ := List.mem_map.1 hline
    exact ⟨Entry.solid_render (hplain e he), Entry.newline_not_mem_render (hplain e he)⟩
  obtain ⟨a, statements, hfed, hstatements, hlinks⟩ :=
    forM_render (a := empty) htiles hforms hplain fun _ _ => rfl
  have hsource : ofSource (['\n'].intercalate (entries.map Entry.render)) = .ok () a := by
    rw [ofSource, hlines]
    exact hfed
  unfold assemble
  rw [hsource]
  refine link_eq_ok.2 ⟨entries, ?_, rfl⟩
  rw [hstatements]
  exact hlinks a.labels

/-- The listing of a program, all of whose strings are plain, assembles to the
    program with each integer slot in the encoding of its integer. That is the
    program itself if its slots were so before, as those of an assembled program
    are, and it always has the same listing. -/
theorem assemble_listing {program : Bytes} (h : Listing.entries? program = .ok entries)
    (hplain : ∀ e ∈ entries, ∀ o ∈ e.operands, o.Plain) :
    ∃ lines program', Listing.lines? program = .ok lines ∧
      assemble (['\n'].intercalate lines) = .ok program' ∧
      program'.length = program.length ∧
      (∀ i, (∀ offset v, (offset, v) ∈ Listing.slots entries →
          i < offset ∨ offset + Slot.width ≤ i) → program'[i]? = program[i]?) ∧
      (∀ offset v, (offset, v) ∈ Listing.slots entries →
        offset + Slot.width ≤ program.length ∧
        Slot.decode? ((program.drop offset).take Slot.width) = some v ∧
        (program'.drop offset).take Slot.width = Slot.encode v) ∧
      ((∀ offset v, (offset, v) ∈ Listing.slots entries →
          (program.drop offset).take Slot.width = Slot.encode v) → program' = program) ∧
      (∀ source, assemble source = .ok program → program' = program) ∧
      Listing.lines? program' = .ok lines := by
  obtain ⟨hforms, hspelled⟩ := Listing.spelled_of_entries? h
  refine ⟨entries.map Entry.render, entries.flatMap Entry.encode, ?_,
    assemble_render (Listing.tiles_entries? h) hforms hplain, hspelled.length_eq,
    fun i hi => hspelled.getElem?_eq hi, fun offset v hs => ?_, fun hslots => ?_,
    fun source hsource => ?_, ?_⟩
  · rw [Listing.lines?, h]
    rfl
  · obtain ⟨i, hoffset, hslot⟩ := hspelled.slot _ hs
    rw [Nat.zero_add] at hoffset
    subst hoffset
    exact hslot
  · exact hspelled.eq_of_slots fun s hs => hslots s.1 s.2 hs
  · exact flatMap_encode_of_assemble hsource h
  · rw [Listing.lines?, Listing.entries?_respelled h]
    rfl

/-- A string with the delimiters of source text in it, and a slot with a needless
    digit and with bytes that no digit reaches. -/
theorem assemble_listing_of_delimiters :
    let program : Bytes :=
      [2, 0, 6, 97, 58, 32, 59, 39, 32, 1, 0x86, 0x80, 0x00, 7, 7, 7, 7, 7]
    let program' : Bytes := [2, 0, 6, 97, 58, 32, 59, 39, 32, 1, 6, 0, 0, 0, 0, 0, 0, 0]
    let entries : List Entry := [⟨0, .pushString, [.string [97, 58, 32, 59, 39, 32]]⟩,
      ⟨9, .pushInt, [.integer 3]⟩]
    Listing.entries? program = .ok entries ∧
      assemble (['\n'].intercalate (entries.map Entry.render)) = .ok program' ∧
      Listing.lines? program' = .ok (entries.map Entry.render) := by
  intro program program' entries
  have h : Listing.entries? program = .ok entries := by decide +kernel
  have hlines : Listing.lines? program = .ok (entries.map Entry.render) := by decide +kernel
  have hprogram : assemble (['\n'].intercalate (entries.map Entry.render)) = .ok program' := by
    decide +kernel
  obtain ⟨lines, p, hlisted, hassembled, -, -, -, -, -, hagain⟩ :=
    assemble_listing h (by decide +kernel)
  cases hlines.symm.trans hlisted
  cases hprogram.symm.trans hassembled
  exact ⟨h, hprogram, hagain⟩

end Assembly

end StackMachine
