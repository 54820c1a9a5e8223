-- SUMMARY: The listing of an assembled program has the instructions of its source.
import StackMachine.Proofs.Arguments
import StackMachine.Proofs.Linking
import StackMachine.Proofs.ListingLines

/-!
# Listing what was assembled

The listing of an assembled program has one instruction for each source line
that carries one, in the order of the lines. `Assembly.Shows` goes through the
source line by line and says which instruction that is: where it begins, what
its mnemonic names, and what operand each part of its text denotes. `Entry.Shown`
says what the line of the listing is then.
-/

namespace StackMachine

namespace Argument

variable {labels : Labels}

/-- A part of source text denotes the operand, given the labels. -/
def Denotes (labels : Labels) (kind : OperandKind) (t : Text) (o : Operand) : Prop :=
  ∃ argument, Reads kind t argument ∧ Stands labels argument o

/-- What is denoted can be encoded. The cases are what text is read as. -/
theorem Denotes.ofKind {kind : OperandKind} {t : Text} {o : Operand}
    (h : Denotes labels kind t o) : o.OfKind kind := by
  obtain ⟨argument, hreads, hstands⟩ := h
  cases hreads with
  | reference =>
    cases hstands with
    | reference _ fits => exact .address fits
  | exitCode =>
    cases hstands
    exact .exitCode _
  | register =>
    cases hstands
    exact .register _
  | integer _ fits =>
    cases hstands
    exact .integer fits
  | address _ _ fits =>
    cases hstands
    exact .address fits
  | string _ short =>
    cases hstands
    exact .string short

theorem forall₂_denotes {parts : List (OperandKind × Text)} {arguments : List Argument}
    {operands : List Operand}
    (hreads : List.Forall₂ (fun part argument => Reads part.1 part.2 argument) parts arguments)
    (h : List.Forall₂ (Stands labels) arguments operands) :
    List.Forall₂ (fun part o => Denotes labels part.1 part.2 o) parts operands := by
  induction hreads generalizing operands with
  | nil =>
    cases h
    exact .nil
  | cons hpart _ ih =>
    cases h with
    | cons hstands h => exact .cons ⟨_, hpart, hstands⟩ (ih h)

end Argument

namespace Assembly

variable {a b c : Assembly} {lines : List Text} {statements : List Statement}
  {entries : List Entry} {labels : Labels}

/-- The instructions are those that the lines carry, when the lines are taken one
    after the other: each begins where the bytes of the lines before it end, has
    the opcode of its mnemonic and the operands that its text denotes. -/
inductive Shows (labels : Labels) : Assembly → List Text → List Entry → Prop
  | nil {a : Assembly} : Shows labels a [] []
  | bare {a b : Assembly} {line : Text} {lines : List Text} {entries : List Entry}
      (fed : feed line a = .ok () b) (instruction : (SourceLine.parse line).instruction = none)
      (rest : Shows labels b lines entries) : Shows labels a (line :: lines) entries
  | carrying {a b : Assembly} {line mnemonic operands : Text} {lines : List Text}
      {parts : List (OperandKind × Text)} {e : Entry} {entries : List Entry}
      (fed : feed line a = .ok () b)
      (instruction : (SourceLine.parse line).instruction = some (mnemonic, operands))
      (offset : e.offset = a.bytes.length)
      (opcode : Opcode.ofMnemonic? mnemonic = some e.opcode)
      (split : Argument.split e.opcode.layout operands = .ok parts)
      (denotes : List.Forall₂ (fun part o => Argument.Denotes labels part.1 part.2 o) parts
        e.operands)
      (rest : Shows labels b lines entries) : Shows labels a (line :: lines) (e :: entries)

theorem Takes.shows (h : Takes a lines statements c) (ha : a.Sized)
    (hlinks : List.Forall₂ (Statement.Links labels) statements entries) :
    Shows labels a lines entries := by
  induction h generalizing entries with
  | nil =>
    cases hlinks
    exact .nil
  | bare fed instruction _ _ ih => exact .bare fed instruction (ih (ha.of_feed fed) hlinks)
  | carrying fed carries _ _ ih =>
    cases hlinks with
    | cons he hlinks =>
      obtain ⟨hinstruction, hopcode, harguments, hoffset⟩ := carries
      obtain ⟨parts, hparts, hreads⟩ := Argument.readAll_eq_none.1 harguments
      rw [← he.opcode] at hopcode hparts
      have hdenotes := Argument.forall₂_denotes hreads he.operands
      exact .carrying fed hinstruction (he.offset.trans (hoffset.trans ha)) hopcode hparts
        hdenotes (ih (ha.of_feed fed) hlinks)

/-- What the lines of a source show is well formed. -/
theorem Shows.wellFormed (h : Shows labels a lines entries) : ∀ e ∈ entries, e.WellFormed := by
  induction h with
  | nil => exact fun e he => (nomatch he)
  | bare _ _ _ ih => exact ih
  | carrying _ _ _ _ split denotes _ ih =>
    intro e he
    cases he with
    | head =>
      unfold Entry.WellFormed
      rw [← Argument.map_fst_of_split split, List.forall₂_map_left_iff]
      exact denotes.imp fun part o ho => ho.ofKind
    | tail _ he => exact ih e he

/-- An assembly ends where its next statement begins, if there is one. -/
theorem Takes.size_mem (h : Takes a lines statements c) :
    a.size = c.size ∨ ∃ s ∈ statements, s.offset = a.size := by
  induction h with
  | nil => exact .inl rfl
  | bare _ _ size _ ih =>
    rw [← size]
    exact ih
  | carrying _ carries _ _ _ => exact .inr ⟨_, List.mem_cons_self, carries.offset⟩

/-- Before each of its lines an assembly ends where a statement begins, or where
    the last one ends. -/
theorem Takes.size_mem_of_meets {line : Text} (h : Takes a lines statements c)
    (hmeets : Meets a lines line b) :
    b.size = c.size ∨ ∃ s ∈ statements, s.offset = b.size := by
  obtain ⟨before, after, _, rfl, hafter, -⟩ := h.split_of_meets hmeets
  obtain hend | ⟨s, hs, hoffset⟩ := hafter.size_mem
  · exact .inl hend
  · exact .inr ⟨s, List.mem_append_right before hs, hoffset⟩

section Assembled

variable {source : Text} {program : Bytes} (h : Assembled source program a statements entries)
include h

theorem Assembled.shows : Shows a.labels empty (Text.lines source) entries :=
  h.takes.shows sized_empty h.links

theorem Assembled.entries?_eq : Listing.entries? program = .ok entries := by
  rw [h.program_eq]
  exact Listing.entries?_encode (h.takes.tiles h.links) h.shows.wellFormed

/-- A label stands for the offset of an instruction, or for the end. -/
theorem Assembled.defines_mem {name : Text} {address : Nat} (hdefines : Defines source name address) :
    address = program.length ∨ ∃ e ∈ entries, e.offset = address := by
  obtain ⟨line, b, hmeets, -, rfl⟩ := hdefines
  have hsize : b.size = b.bytes.length := sized_empty.of_meets hmeets
  rw [← hsize]
  rcases h.takes.size_mem_of_meets hmeets with hend | ⟨s, hs, hoffset⟩
  · left
    rw [hend, h.length_eq]
    exact sized_empty.of_forM h.accepted
  · obtain ⟨e, he, hlinked⟩ := exists_of_forall₂ h.links hs
    exact .inr ⟨e, he, hlinked.offset.trans hoffset⟩

end Assembled

end Assembly

end StackMachine
