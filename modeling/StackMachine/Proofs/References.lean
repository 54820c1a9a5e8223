-- SUMMARY: Where a program has the slots of label references, and what linking writes there and elsewhere.
import StackMachine.Proofs.Arguments
import StackMachine.Proofs.Linking

/-!
# References

A line refers to a label if its last operand is an address and `%` stands before
it. The slot of such a reference lies behind the other operands, and linking
fills it with the address of the label. All other bytes of the program are those
of the forward pass.
-/

namespace StackMachine

/-- How many bytes of an instruction stand before the slot of its address, if the
    layout has one. -/
def Layout.addressOffset? : Layout → Option Nat
  | .address => some 1
  | .registerAddress => some 2
  | _ => Option.none

/-- An address is the last operand, and registers stand before it. -/
theorem Layout.kinds_of_addressOffset? {layout : Layout} {offset : Nat}
    (h : layout.addressOffset? = some offset) :
    ∃ n, offset = 1 + n ∧ layout.kinds = List.replicate n .register ++ [.address] := by
  cases layout with
  | address =>
    cases h
    exact ⟨0, rfl, rfl⟩
  | registerAddress =>
    cases h
    exact ⟨1, rfl, rfl⟩
  | _ => cases h

/-- The label that the instruction of a line refers to, and how many bytes of the
    instruction stand before its slot. -/
def SourceLine.reference? (s : SourceLine) : Option (Text × Nat) := do
  let (mnemonic, operands) ← s.instruction
  let op ← Opcode.ofMnemonic? mnemonic
  let offset ← op.layout.addressOffset?
  match (Text.words operands).getLast? with
  | some ('%' :: name) => some (name, offset)
  | _ => none

namespace Argument

variable {layout : Layout} {t : Text} {parts : List (OperandKind × Text)}
  {arguments : List Argument}

/-- Arguments are operands, or registers and behind them a reference. -/
inductive Shape (reference : Option (Text × Nat)) : List Argument → Prop
  | plain (operands : List Operand) (none : reference = none) :
      Shape reference (operands.map .operand)
  | referring (registers : List Register) {name : Text}
      (some : reference = some (name, 1 + registers.length)) :
      Shape reference ((registers.map .register).map .operand ++ [.reference name])

theorem operands_of_reads
    (h : List.Forall₂ (fun part argument => Reads part.1 part.2 argument) parts arguments)
    (hkinds : .address ∉ parts.map Prod.fst) :
    ∃ operands : List Operand, arguments = operands.map .operand := by
  induction h with
  | nil => exact ⟨[], rfl⟩
  | @cons part argument _ _ hreads _ ih =>
    rw [List.map_cons, List.mem_cons, not_or] at hkinds
    obtain ⟨operands, rfl⟩ := ih hkinds.2
    obtain ⟨o, rfl⟩ : ∃ o, argument = .operand o := by
      obtain ⟨kind, t⟩ := part
      cases hreads with
      | exitCode | register | integer | string => exact ⟨_, rfl⟩
      | address | reference => exact absurd rfl hkinds.1
    exact ⟨o :: operands, rfl⟩

theorem registers_of_reads {n : Nat}
    (h : List.Forall₂ (fun part argument => Reads part.1 part.2 argument) parts arguments)
    (hkinds : parts.map Prod.fst = List.replicate n .register ++ [.address]) :
    ∃ (registers : List Register) (w : Text) (argument : Argument), registers.length = n ∧
      arguments = (registers.map .register).map .operand ++ [argument] ∧
      (parts.map Prod.snd).getLast? = some w ∧ Reads .address w argument := by
  induction n generalizing parts arguments with
  | zero =>
    obtain ⟨⟨kind, w⟩, rest, rfl, hkind, hrest⟩ := List.map_eq_cons_iff.1 hkinds
    obtain rfl : kind = .address := hkind
    obtain rfl := List.map_eq_nil_iff.1 hrest
    obtain ⟨argument, _, hreads, hnil, rfl⟩ := List.forall₂_cons_left_iff.1 h
    cases hnil
    exact ⟨[], w, argument, rfl, rfl, rfl, hreads⟩
  | succ n ih =>
    obtain ⟨⟨kind, name⟩, rest, rfl, hkind, hrest⟩ := List.map_eq_cons_iff.1 hkinds
    obtain rfl : kind = .register := hkind
    obtain ⟨first, others, hfirst, hothers, rfl⟩ := List.forall₂_cons_left_iff.1 h
    obtain ⟨registers, w, argument, rfl, rfl, hlast, hreads⟩ := ih hothers hrest
    cases hfirst with
    | @register _ r _ =>
      refine ⟨r :: registers, w, argument, rfl, rfl, ?_, hreads⟩
      rw [List.map_cons, List.getLast?_cons, hlast]
      rfl

/-- The words of operands that are no literals are their parts. -/
theorem map_snd_of_split (h : split layout t = .ok parts) (hstring : .string ∉ layout.kinds) :
    parts.map Prod.snd = Text.words t := by
  unfold split at h
  split at h
  · exact absurd (List.mem_singleton.2 rfl) hstring
  · exact absurd (List.mem_cons_of_mem _ (List.mem_singleton.2 rfl)) hstring
  · cases h
  · split at h
    · rename_i hlength
      cases h
      exact List.map_snd_zip (Nat.le_of_eq hlength)
    · cases h

end Argument

namespace Assembly

variable {a b c : Assembly} {line mnemonic operands : Text} {s : Statement}

theorem Carries.reference?_eq (h : a.Carries line mnemonic operands s) :
    (SourceLine.parse line).reference? = s.opcode.layout.addressOffset?.bind fun offset =>
      match (Text.words operands).getLast? with
      | some ('%' :: name) => some (name, offset)
      | _ => none := by
  simp only [SourceLine.reference?, h.instruction, h.opcode, Option.bind_eq_bind,
    Option.bind_some]

/-- The arguments of a statement have the shape that its line says. -/
theorem Carries.shape (h : a.Carries line mnemonic operands s) :
    Argument.Shape (SourceLine.parse line).reference? s.arguments := by
  obtain ⟨parts, hsplit, hreads⟩ := Argument.readAll_eq_none.1 h.arguments
  have hkinds := Argument.map_fst_of_split hsplit
  rw [h.reference?_eq]
  cases hoffset : s.opcode.layout.addressOffset? with
  | none =>
    have hnone : .address ∉ s.opcode.layout.kinds := by
      generalize s.opcode.layout = layout at hoffset
      cases layout <;> first | decide | cases hoffset
    obtain ⟨operands, hoperands⟩ :=
      Argument.operands_of_reads hreads (by rw [hkinds]; exact hnone)
    rw [hoperands]
    exact .plain operands rfl
  | some offset =>
    obtain ⟨n, rfl, hlayout⟩ := Layout.kinds_of_addressOffset? hoffset
    have hstring : .string ∉ s.opcode.layout.kinds := by
      rw [hlayout]
      simp
    obtain ⟨registers, w, argument, rfl, harguments, hlast, hread⟩ :=
      Argument.registers_of_reads hreads (hkinds.trans hlayout)
    rw [Argument.map_snd_of_split hsplit hstring] at hlast
    rw [harguments, Option.bind_some, hlast]
    cases hread with
    | reference _ => exact .referring registers rfl
    | @address _ v plain _ _ =>
      have hoperands : (registers.map Operand.register).map Argument.operand ++
          [.operand (.integer v)] =
          (registers.map Operand.register ++ [Operand.integer v]).map Argument.operand := by
        rw [List.map_append]
        rfl
      rw [hoperands]
      refine .plain _ ?_
      split
      · rename_i name hname
        exact absurd (Option.some.inj hname) (plain name)
      · rfl

/-! ## Slots -/

theorem stands_operands {labels : Labels} {operands others : List Operand}
    (h : List.Forall₂ (Argument.Stands labels) (operands.map .operand) others) :
    others = operands := by
  rw [List.forall₂_map_left_iff] at h
  have heq : List.Forall₂ (· = ·) operands others := h.imp fun o o' ho => by
    cases ho
    rfl
  rw [List.forall₂_eq_eq_eq] at heq
  exact heq.symm

/-- A statement and the instruction it stands for have the same bytes, up to the
    slot at their end if the line refers to a label. -/
theorem Carries.bytes_of_links {labels : Labels} {e : Entry}
    (h : a.Carries line mnemonic operands s) (hlinks : s.Links labels e) :
    ((SourceLine.parse line).reference? = none ∧ e.encode = s.bytes) ∨
    ∃ (front : Bytes) (name : Text) (address : Nat),
      (SourceLine.parse line).reference? = some (name, front.length) ∧
      labels.lookup name = some address ∧ Slot.Fits address ∧
      s.bytes = front ++ Slot.blank ∧ e.encode = front ++ Slot.encode address := by
  have hoperands := hlinks.operands
  unfold Entry.encode Statement.bytes
  rw [hlinks.opcode]
  have hshape := h.shape
  generalize s.arguments = arguments at hshape hoperands
  cases hshape with
  | plain os hnone =>
    refine .inl ⟨hnone, ?_⟩
    rw [stands_operands hoperands, List.flatMap_map]
    rfl
  | @referring registers name hsome =>
    obtain ⟨os, last, hos, hlast, hsplit⟩ := forall₂_append_left hoperands
    obtain rfl := stands_operands hos
    obtain ⟨o, _, ho, hnil, rfl⟩ := List.forall₂_cons_left_iff.1 hlast
    cases hnil
    cases ho with
    | @reference _ address found fits =>
      refine .inr ⟨s.opcode.byte :: registers.map Register.byte, name, address, ?_, found, fits,
        ?_, ?_⟩
      · rw [hsome, List.length_cons, List.length_map, Nat.add_comm]
      · rw [List.flatMap_append, List.flatMap_map, List.flatMap_map, List.map_eq_flatMap]
        rfl
      · rw [hsplit, List.flatMap_append, List.flatMap_map, List.map_eq_flatMap,
          List.cons_append]
        simp only [List.flatMap_cons, List.flatMap_nil, List.append_nil]
        rfl

/-- A line of the source refers to the label, and its slot begins `before` bytes
    behind those that the lines before it have made. -/
def Refers (source name : Text) (offset : Nat) : Prop :=
  ∃ line a before, Meets empty (Text.lines source) line a ∧
    (SourceLine.parse line).reference? = some (name, before) ∧ offset = a.bytes.length + before

variable {lines : List Text} {statements : List Statement} {labels : Labels}
  {entries : List Entry}

/-- The slot of a reference holds the address of the label. -/
theorem Takes.slot_eq {name : Text} {before : Nat} (h : Takes a lines statements c)
    (hlinks : List.Forall₂ (Statement.Links labels) statements entries)
    (hmeets : Meets a lines line b)
    (hline : (SourceLine.parse line).reference? = some (name, before)) :
    ∃ address : Nat, labels.lookup name = some address ∧ Slot.Fits address ∧
      ((entries.flatMap Entry.encode).drop (b.size - a.size + before)).take Slot.width =
        Slot.encode address := by
  have hinstruction : (SourceLine.parse line).instruction ≠ none := by
    intro hnone
    rw [SourceLine.reference?, hnone] at hline
    cases hline
  obtain ⟨earlier, after, _, rfl, hafter, hsize⟩ := h.split_of_meets hmeets
  cases hafter with
  | bare _ hnone _ _ => exact absurd hnone hinstruction
  | @carrying _ _ _ _ _ _ _ s later _ hcarries _ _ =>
    obtain ⟨earlier', rest, hearlier, hrest, rfl⟩ := forall₂_append_left hlinks
    obtain ⟨e, later', hlinked, _, rfl⟩ := List.forall₂_cons_left_iff.1 hrest
    obtain ⟨hnone, -⟩ | ⟨front, name', address, hsome, hfound, hfits, -, hencode⟩ :=
      hcarries.bytes_of_links hlinked
    · rw [hline] at hnone
      cases hnone
    · rw [hline] at hsome
      cases hsome
      -- Linking changes no sizes, so the offsets of the forward pass still hold.
      have hoffset : b.size - a.size + front.length =
          (earlier'.flatMap Entry.encode ++ front).length := by
        rw [List.length_append, length_of_links hearlier, hsize, Nat.add_sub_cancel_left]
      refine ⟨address, hfound, hfits, ?_⟩
      rw [hoffset, List.flatMap_append, List.flatMap_cons, hencode, List.append_assoc,
        ← List.append_assoc, List.drop_left, ← Slot.length_encode address, List.take_left]

/-- Byte strings of one length that agree but at offsets of which `P` holds. -/
def AgreeExcept (P : Nat → Prop) (start : Nat) (b b' : Bytes) : Prop :=
  b.length = b'.length ∧ ∀ i, ¬ P (start + i) → b[i]? = b'[i]?

theorem AgreeExcept.refl (P : Nat → Prop) (start : Nat) (b : Bytes) : AgreeExcept P start b b :=
  ⟨rfl, fun _ _ => rfl⟩

theorem AgreeExcept.mono {P Q : Nat → Prop} {start : Nat} {b b' : Bytes}
    (h : AgreeExcept P start b b') (hPQ : ∀ i, P i → Q i) : AgreeExcept Q start b b' :=
  ⟨h.1, fun i hi => h.2 i fun hP => hi (hPQ _ hP)⟩

theorem AgreeExcept.append {P : Nat → Prop} {start : Nat} {b b' rest rest' : Bytes}
    (h : AgreeExcept P start b b') (hrest : AgreeExcept P (start + b.length) rest rest') :
    AgreeExcept P start (b ++ rest) (b' ++ rest') := by
  refine ⟨by rw [List.length_append, List.length_append, h.1, hrest.1], fun i hi => ?_⟩
  rcases Nat.lt_or_ge i b.length with hlt | hge
  · rw [List.getElem?_append_left hlt, List.getElem?_append_left (by rw [← h.1]; exact hlt)]
    exact h.2 i hi
  · have hge' : b'.length ≤ i := by rw [← h.1]; exact hge
    have hoffset : start + b.length + (i - b.length) = start + i := by
      rw [Nat.add_assoc, Nat.add_sub_cancel' hge]
    rw [List.getElem?_append_right hge, List.getElem?_append_right hge', ← h.1]
    exact hrest.2 _ (by rw [hoffset]; exact hi)

/-- Every byte outside the slots of references is that of the forward pass. -/
theorem Takes.agreeExcept {P : Nat → Prop} (h : Takes a lines statements c)
    (hlinks : List.Forall₂ (Statement.Links labels) statements entries)
    (hslots : ∀ line b name before, Meets a lines line b →
      (SourceLine.parse line).reference? = some (name, before) →
      ∀ i < Slot.width, P (b.size + before + i)) :
    AgreeExcept P a.size (statements.flatMap Statement.bytes) (entries.flatMap Entry.encode) := by
  induction h generalizing entries with
  | nil =>
    cases hlinks
    exact .refl P _ _
  | bare fed _ size _ ih =>
    rw [← size]
    exact ih hlinks fun line b name before hmeets => hslots line b name before (.there fed hmeets)
  | carrying fed carries size _ ih =>
    cases hlinks with
    | cons hlinked hlinks =>
      have hrest := ih hlinks fun line b name before hmeets =>
        hslots line b name before (.there fed hmeets)
      rw [size] at hrest
      refine AgreeExcept.append ?_ hrest
      obtain ⟨-, hencode⟩ | ⟨front, name, address, hsome, -, -, hbytes, hencode⟩ :=
        carries.bytes_of_links hlinked
      · rw [hencode]
        exact .refl P _ _
      · rw [hbytes, hencode]
        refine AgreeExcept.append (.refl P _ _) ⟨?_, fun i hi => ?_⟩
        · exact (Slot.length_encode _).symm
        · have hwidth : Slot.width ≤ i :=
            Nat.le_of_not_lt fun hlt => hi (hslots _ _ _ _ .here hsome i hlt)
          rw [List.getElem?_eq_none hwidth, List.getElem?_eq_none]
          rw [Slot.length_encode]
          exact hwidth

/-! ## Programs -/

section Assembled

variable {source : Text} {program : Bytes} (h : Assembled source program a statements entries)
include h

/-- The slot of a reference encodes the address of its label. -/
theorem Assembled.slot_eq {name : Text} {offset : Nat} (hrefers : Refers source name offset) :
    ∃ address : Nat, a.labels.lookup name = some address ∧ Slot.Fits address ∧
      (program.drop offset).take Slot.width = Slot.encode address := by
  obtain ⟨line, b, before, hmeets, href, rfl⟩ := hrefers
  obtain ⟨address, hfound, hfits, hslot⟩ := h.takes.slot_eq h.links hmeets href
  refine ⟨address, hfound, hfits, ?_⟩
  rw [← hslot, h.program_eq, ← sized_empty.of_meets hmeets]
  rfl

/-- A byte outside all slots of references is that of the forward pass. -/
theorem Assembled.getElem?_eq {i : Nat}
    (hi : ∀ name offset, Refers source name offset → i < offset ∨ offset + Slot.width ≤ i) :
    program[i]? = a.bytes[i]? := by
  -- The offsets that lie in the slot of some reference.
  let InSlot (i : Nat) : Prop :=
    ∃ name offset, Refers source name offset ∧ offset ≤ i ∧ i < offset + Slot.width
  have hslots : ∀ line b name before, Meets empty (Text.lines source) line b →
      (SourceLine.parse line).reference? = some (name, before) →
      ∀ j < Slot.width, InSlot (b.size + before + j) := by
    intro line b name before hmeets href j hj
    have hsize : b.size = b.bytes.length := sized_empty.of_meets hmeets
    refine ⟨name, b.size + before, ⟨line, b, before, hmeets, href, ?_⟩, ?_, ?_⟩
    · rw [hsize]
    · exact Nat.le_add_right _ _
    · exact Nat.add_lt_add_left hj _
  have hagree := h.takes.agreeExcept h.links hslots
  rw [h.program_eq, h.bytes_eq]
  refine (hagree.2 i ?_).symm
  change ¬ InSlot (0 + i)
  rw [Nat.zero_add]
  rintro ⟨name, offset, hrefers, hle, hlt⟩
  rcases hi name offset hrefers with hbefore | hafter
  · exact Nat.not_le_of_lt hbefore hle
  · exact Nat.not_le_of_lt hlt hafter

end Assembled

end Assembly
end StackMachine
