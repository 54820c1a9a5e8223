-- SUMMARY: Linking writes each statement as the instruction that it stands for.
import StackMachine.Proofs.Encoding
import StackMachine.Proofs.ForwardPass

/-!
# Linking

Once labels have addresses every argument stands for an operand, and every
statement for an instruction of as many bytes. Linking succeeds if all of them
do, and then the program is those instructions end to end.
-/

namespace StackMachine

/-- One item after the other, where the results that an item can have are the
    values of `g` on what `R` relates to it. -/
theorem mapM_eq_ok {f : α → Except ε γ} {R : α → β → Prop} {g : β → γ}
    (hf : ∀ x z, f x = .ok z ↔ ∃ y, R x y ∧ z = g y) {xs : List α} {zs : List γ} :
    xs.mapM f = .ok zs ↔ ∃ ys, List.Forall₂ R xs ys ∧ zs = ys.map g := by
  induction xs generalizing zs with
  | nil =>
    rw [List.mapM_nil]
    constructor
    · intro h
      cases h
      exact ⟨[], .nil, rfl⟩
    · rintro ⟨ys, hys, rfl⟩
      cases hys
      rfl
  | cons x xs ih =>
    rw [List.mapM_cons]
    constructor
    · intro h
      cases hx : f x with
      | error e =>
        rw [hx] at h
        cases h
      | ok z =>
        cases hxs : xs.mapM f with
        | error e =>
          rw [hx, hxs] at h
          cases h
        | ok rest =>
          rw [hx, hxs] at h
          cases h
          obtain ⟨y, hy, rfl⟩ := (hf x z).1 hx
          obtain ⟨ys, hys, rfl⟩ := ih.1 hxs
          exact ⟨y :: ys, .cons hy hys, rfl⟩
    · rintro ⟨ys, hys, rfl⟩
      cases hys with
      | @cons _ y _ ys hy hys =>
        rw [(hf x (g y)).2 ⟨y, hy, rfl⟩, ih.2 ⟨ys, hys, rfl⟩]
        rfl

theorem exists_of_forall₂ {R : α → β → Prop} {xs : List α} {ys : List β} {x : α}
    (h : List.Forall₂ R xs ys) (hx : x ∈ xs) : ∃ y ∈ ys, R x y := by
  induction h with
  | nil => cases hx
  | cons hxy _ ih =>
    cases hx with
    | head => exact ⟨_, List.mem_cons_self, hxy⟩
    | tail _ hx =>
      obtain ⟨y, hy, hR⟩ := ih hx
      exact ⟨y, List.mem_cons_of_mem _ hy, hR⟩

theorem forall₂_append_left {R : α → β → Prop} {xs xs' : List α} {ys : List β}
    (h : List.Forall₂ R (xs ++ xs') ys) :
    ∃ zs zs', List.Forall₂ R xs zs ∧ List.Forall₂ R xs' zs' ∧ ys = zs ++ zs' := by
  induction xs generalizing ys with
  | nil => exact ⟨[], ys, .nil, h, rfl⟩
  | cons x xs ih =>
    obtain ⟨y, rest, hxy, hrest, rfl⟩ := List.forall₂_cons_left_iff.1 h
    obtain ⟨zs, zs', hzs, hzs', rfl⟩ := ih hrest
    exact ⟨y :: zs, zs', .cons hxy hzs, hzs', rfl⟩

theorem length_flatMap_eq {R : α → β → Prop} {f : α → List γ} {g : β → List δ} {xs : List α}
    {ys : List β} (h : List.Forall₂ R xs ys) (hR : ∀ x y, R x y → (g y).length = (f x).length) :
    (ys.flatMap g).length = (xs.flatMap f).length := by
  induction h with
  | nil => rfl
  | cons hxy _ ih => rw [List.flatMap_cons, List.flatMap_cons, List.length_append,
      List.length_append, hR _ _ hxy, ih]

namespace Argument

variable {labels : Labels} {argument : Argument} {o : Operand}

/-- The operand that an argument stands for once labels have addresses. -/
inductive Stands (labels : Labels) : Argument → Operand → Prop
  | operand (o : Operand) : Stands labels (.operand o) o
  | reference {name : Text} {address : Nat} (found : labels.lookup name = some address)
      (fits : Slot.Fits address) : Stands labels (.reference name) (.integer address)

theorem resolve_eq_ok {b : Bytes} :
    argument.resolve labels = .ok b ↔ ∃ o, Stands labels argument o ∧ b = o.encode := by
  cases argument with
  | operand o =>
    constructor
    · intro h
      cases h
      exact ⟨o, .operand o, rfl⟩
    · rintro ⟨o', hstands, rfl⟩
      cases hstands
      rfl
  | reference name =>
    constructor
    · intro h
      simp only [resolve] at h
      cases hfound : labels.lookup name with
      | none =>
        rw [hfound] at h
        cases h
      | some address =>
        simp only [hfound] at h
        by_cases hfits : Slot.Fits address
        · rw [Slot.encode?_of_fits hfits] at h
          cases h
          exact ⟨.integer address, .reference hfound hfits, rfl⟩
        · rw [Slot.encode?_of_not_fits hfits] at h
          cases h
    · rintro ⟨o, hstands, rfl⟩
      cases hstands with
      | @reference _ address found fits =>
        simp only [resolve, found, Slot.encode?_of_fits fits]
        rfl

/-- Resolving labels does not change how many bytes an argument takes. -/
theorem Stands.length_eq (h : Stands labels argument o) :
    o.encode.length = argument.bytes.length := by
  cases h with
  | operand o => rfl
  | reference found fits => exact Slot.length_encode _

end Argument

namespace Statement

variable {labels : Labels} {s : Statement} {e : Entry}

/-- The instruction that a statement stands for once labels have addresses. -/
structure Links (labels : Labels) (s : Statement) (e : Entry) : Prop where
  offset : e.offset = s.offset
  opcode : e.opcode = s.opcode
  operands : List.Forall₂ (Argument.Stands labels) s.arguments e.operands

theorem resolve_eq_ok {code : Bytes} :
    s.resolve labels = .ok code ↔ ∃ e, s.Links labels e ∧ code = e.encode := by
  unfold resolve
  constructor
  · intro h
    cases hmap : s.arguments.mapM (Argument.resolve labels) with
    | error mistake =>
      rw [hmap] at h
      cases h
    | ok parts =>
      rw [hmap] at h
      cases h
      obtain ⟨operands, hoperands, rfl⟩ := (mapM_eq_ok fun _ _ => Argument.resolve_eq_ok).1 hmap
      refine ⟨⟨s.offset, s.opcode, operands⟩, ⟨rfl, rfl, hoperands⟩, ?_⟩
      rw [Entry.encode, List.flatMap_def]
  · rintro ⟨e, ⟨-, hopcode, hoperands⟩, rfl⟩
    have hmap := (mapM_eq_ok fun _ _ => Argument.resolve_eq_ok).2 ⟨e.operands, hoperands, rfl⟩
    rw [hmap, Entry.encode, hopcode, List.flatMap_def]

theorem Links.length_eq (h : s.Links labels e) : e.encode.length = s.bytes.length := by
  exact congrArg (· + 1) (length_flatMap_eq h.operands fun _ _ ho => ho.length_eq)

end Statement

namespace Assembly

variable {a b c : Assembly} {lines : List Text} {statements : List Statement}

/-- Linking succeeds if every statement stands for an instruction. -/
theorem link_eq_ok {program : Bytes} :
    a.link = .ok program ↔ ∃ entries,
      List.Forall₂ (Statement.Links a.labels) a.statements.toList entries ∧
        program = entries.flatMap Entry.encode := by
  unfold link
  constructor
  · intro h
    cases hmap : a.statements.toList.mapM (Statement.resolve a.labels) with
    | error e =>
      rw [hmap] at h
      cases h
    | ok codes =>
      rw [hmap] at h
      cases h
      obtain ⟨entries, hentries, rfl⟩ := (mapM_eq_ok fun _ _ => Statement.resolve_eq_ok).1 hmap
      exact ⟨entries, hentries, (List.flatMap_def ..).symm⟩
  · rintro ⟨entries, hentries, rfl⟩
    have hmap := (mapM_eq_ok fun _ _ => Statement.resolve_eq_ok).2 ⟨entries, hentries, rfl⟩
    rw [hmap, List.flatMap_def]
    rfl

/-- Statements and the instructions they stand for take the same bytes. -/
theorem length_of_links {labels : Labels} {entries : List Entry}
    (h : List.Forall₂ (Statement.Links labels) statements entries) :
    (entries.flatMap Entry.encode).length = (statements.flatMap Statement.bytes).length :=
  length_flatMap_eq h fun _ _ he => he.length_eq

/-- The instructions of the statements lie end to end. -/
theorem Takes.tiles {labels : Labels} {entries : List Entry} (h : Takes a lines statements c)
    (hlinks : List.Forall₂ (Statement.Links labels) statements entries) :
    Listing.Tiles a.size entries c.size := by
  induction h generalizing entries with
  | nil =>
    cases hlinks
    exact rfl
  | bare _ _ size _ ih =>
    rw [← size]
    exact ih hlinks
  | carrying _ carries size _ ih =>
    cases hlinks with
    | @cons _ e _ entries he hlinks =>
      refine ⟨he.offset.trans carries.offset, ?_⟩
      rw [e.width_eq, he.length_eq, ← size]
      exact ih hlinks

/-- The forward pass and the linking of a source that has a program. -/
structure Assembled (source : Text) (program : Bytes) (a : Assembly)
    (statements : List Statement) (entries : List Entry) : Prop where
  accepted : ofSource source = .ok () a
  takes : Takes empty (Text.lines source) statements a
  bytes_eq : a.bytes = statements.flatMap Statement.bytes
  linked : a.link = .ok program
  links : List.Forall₂ (Statement.Links a.labels) statements entries
  program_eq : program = entries.flatMap Entry.encode

/-- The statements are those that the assembly holds in the end. -/
theorem assembled_statements {source : Text} {program : Bytes}
    (h : assemble source = .ok program) :
    ∃ a entries, Assembled source program a a.statements.toList entries := by
  unfold assemble at h
  cases hsource : ofSource source with
  | error e a =>
    rw [hsource] at h
    cases h
  | ok _ a =>
    rw [hsource] at h
    obtain ⟨entries, hlinks, hprogram⟩ := link_eq_ok.1 h
    obtain ⟨statements, htakes, hstatements⟩ := takes_of_forM hsource
    change a.statements.toList = [] ++ statements at hstatements
    rw [List.nil_append] at hstatements
    rw [← hstatements] at htakes
    exact ⟨a, entries, hsource, htakes, rfl, h, hlinks, hprogram⟩

theorem assembled_of_assemble {source : Text} {program : Bytes}
    (h : assemble source = .ok program) :
    ∃ a statements entries, Assembled source program a statements entries := by
  obtain ⟨a, entries, hassembled⟩ := assembled_statements h
  exact ⟨a, _, entries, hassembled⟩

theorem Assembled.length_eq {source : Text} {program : Bytes} {entries : List Entry}
    (h : Assembled source program a statements entries) : program.length = a.bytes.length := by
  rw [h.program_eq, h.bytes_eq]
  exact length_of_links h.links

end Assembly

end StackMachine
