-- SUMMARY: The same contents are assembled alike on other lines, under other names and behind other code.
import StackMachine.Proofs.Linking
import StackMachine.Proofs.Resolution

/-!
# Relocation

What a line adds to an assembly is in its labels and its instruction. The same
contents may stand on other lines, among lines that say nothing, with other names
for the labels and behind other code. Then labels have their new names and the
addresses are moved, and the assembly is else the same: `Assembly.Mirrors` holds
before the lines, and each accepted line keeps it.
-/

namespace StackMachine

/-! ## Contents -/

namespace SourceLine

/-- A line that says nothing. -/
def idle : SourceLine :=
  ⟨[], none⟩

end SourceLine

/-- What the lines say, one after the other. -/
def Assembly.contents (lines : List Text) : List SourceLine :=
  (lines.map SourceLine.parse).filter (· ≠ SourceLine.idle)

/-- The argument with another name for the label that it refers to. -/
def Argument.rename (ρ : Text → Text) : Argument → Argument
  | operand o => operand o
  | reference name => reference (ρ name)

/-- The second line has the labels of the first under their new names. If it has an
    instruction, it is the one of the first, with the same renaming. -/
inductive SourceLine.Recasts (ρ : Text → Text) : SourceLine → SourceLine → Prop
  | bare (labels : List Text) : Recasts ρ ⟨labels, none⟩ ⟨labels.map ρ, none⟩
  | instruction {labels : List Text} {mnemonic mnemonic' operands operands' : Text}
      (recast : ∀ op arguments, Opcode.ofMnemonic? mnemonic = some op →
        Argument.readAll op.layout operands = (arguments, none) →
        Opcode.ofMnemonic? mnemonic' = some op ∧
          Argument.readAll op.layout operands' = (arguments.map (Argument.rename ρ), none)) :
      Recasts ρ ⟨labels, some (mnemonic, operands)⟩ ⟨labels.map ρ, some (mnemonic', operands')⟩

namespace Argument

variable {labels labels' : Labels} {argument : Argument} {ρ : Text → Text} {o : Operand}

@[simp] theorem rename_id : rename id = id := by
  funext argument
  cases argument with
  | operand o => rfl
  | reference name => rfl

theorem map_rename_operands (ρ : Text → Text) (operands : List Operand) :
    (operands.map operand).map (rename ρ) = operands.map operand := by
  rw [List.map_map]
  rfl

@[simp] theorem bytes_rename (ρ : Text → Text) (argument : Argument) :
    (argument.rename ρ).bytes = argument.bytes := by
  cases argument with
  | operand o => rfl
  | reference name => rfl

/-- A renamed argument stands for the same operand if addresses are the same. -/
theorem Stands.rename (h : Stands labels argument o)
    (hlabels : ∀ name address, labels.lookup name = some address →
      labels'.lookup (ρ name) = some address) : Stands labels' (argument.rename ρ) o := by
  cases h with
  | operand o => exact .operand o
  | reference found fits => exact .reference (hlabels _ _ found) fits

/-- A renamed argument stands for some operand if addresses fit. -/
theorem Stands.exists_rename (h : Stands labels argument o)
    (hlabels : ∀ name address, labels.lookup name = some address →
      ∃ address' : Nat, labels'.lookup (ρ name) = some address' ∧ Slot.Fits address') :
    ∃ o', Stands labels' (argument.rename ρ) o' := by
  cases h with
  | operand o => exact ⟨o, .operand o⟩
  | reference found _ =>
    obtain ⟨address', hfound, hfits⟩ := hlabels _ _ found
    exact ⟨.integer address', .reference hfound hfits⟩

end Argument

/-- Another way to write the same instruction. -/
theorem SourceLine.Recasts.of_readAll {mnemonic mnemonic' operands operands' : Text}
    (labels : List Text)
    (h : ∀ op arguments, Opcode.ofMnemonic? mnemonic = some op →
      Argument.readAll op.layout operands = (arguments, none) →
      Opcode.ofMnemonic? mnemonic' = some op ∧
        Argument.readAll op.layout operands' = (arguments, none)) :
    Recasts id ⟨labels, some (mnemonic, operands)⟩ ⟨labels, some (mnemonic', operands')⟩ := by
  have hrecasts := @Recasts.instruction id labels mnemonic mnemonic' operands operands'
    fun op arguments hop hread => by simpa using h op arguments hop hread
  rwa [List.map_id] at hrecasts

@[refl] theorem SourceLine.Recasts.refl (s : SourceLine) : s.Recasts id s := by
  obtain ⟨labels, _ | ⟨mnemonic, operands⟩⟩ := s
  · have h := @Recasts.bare id labels
    rwa [List.map_id] at h
  · exact .of_readAll labels fun _ _ hop hread => ⟨hop, hread⟩

theorem SourceLine.Recasts.labels_eq {ρ : Text → Text} {s s' : SourceLine} (h : s.Recasts ρ s') :
    s'.labels = s.labels.map ρ := by
  cases h with
  | bare labels => rfl
  | instruction _ => rfl

theorem SourceLine.Recasts.idle_iff {ρ : Text → Text} {s s' : SourceLine} (h : s.Recasts ρ s') :
    s = idle ↔ s' = idle := by
  cases h with
  | bare labels => simp [idle]
  | instruction _ => simp [idle]

/-- Every item has a partner if each has one. -/
theorem exists_forall₂ {R : α → β → Prop} {xs : List α} (h : ∀ x ∈ xs, ∃ y, R x y) :
    ∃ ys, List.Forall₂ R xs ys := by
  induction xs with
  | nil => exact ⟨[], .nil⟩
  | cons x xs ih =>
    obtain ⟨y, hy⟩ := h x List.mem_cons_self
    obtain ⟨ys, hys⟩ := ih fun z hz => h z (List.mem_cons_of_mem x hz)
    exact ⟨y :: ys, .cons hy hys⟩

/-! ## Statements -/

/-- The second statement is the first one, moved and with other names for labels.
    The lines may be different. -/
structure Statement.Mirrors (ρ : Text → Text) (start : Nat) (s s' : Statement) : Prop where
  offset : s'.offset = start + s.offset
  opcode : s'.opcode = s.opcode
  arguments : s'.arguments = s.arguments.map (Argument.rename ρ)

namespace Statement

variable {ρ : Text → Text} {start : Nat} {s s' : Statement} {labels labels' : Labels} {e : Entry}

theorem Mirrors.bytes_eq (h : Mirrors ρ start s s') : s'.bytes = s.bytes := by
  simp [bytes, h.opcode, h.arguments, List.flatMap_map]

theorem Mirrors.links (h : Mirrors ρ 0 s s') (he : s.Links labels e)
    (hlabels : ∀ name address, labels.lookup name = some address →
      labels'.lookup (ρ name) = some address) : s'.Links labels' e := by
  refine ⟨?_, he.opcode.trans h.opcode.symm, ?_⟩
  · rw [he.offset, h.offset, Nat.zero_add]
  · rw [h.arguments, List.forall₂_map_left_iff]
    exact he.operands.imp fun _ _ ho => ho.rename hlabels

theorem Mirrors.exists_links (h : Mirrors ρ start s s') (he : s.Links labels e)
    (hlabels : ∀ name address, labels.lookup name = some address →
      ∃ address' : Nat, labels'.lookup (ρ name) = some address' ∧ Slot.Fits address') :
    ∃ e', s'.Links labels' e' := by
  have hoperands : ∀ argument ∈ s'.arguments, ∃ o, Argument.Stands labels' argument o := by
    intro argument hargument
    rw [h.arguments] at hargument
    obtain ⟨original, horiginal, rfl⟩ := List.mem_map.1 hargument
    obtain ⟨o, -, ho⟩ := exists_of_forall₂ he.operands horiginal
    exact ho.exists_rename hlabels
  obtain ⟨operands, hoperands⟩ := exists_forall₂ hoperands
  exact ⟨⟨s'.offset, s'.opcode, operands⟩, rfl, rfl, hoperands⟩

variable {statements statements' : List Statement} {entries : List Entry}

theorem flatMap_bytes_of_mirrors (h : List.Forall₂ (Mirrors ρ start) statements statements') :
    statements'.flatMap bytes = statements.flatMap bytes := by
  induction h with
  | nil => rfl
  | cons hs _ ih => rw [List.flatMap_cons, List.flatMap_cons, hs.bytes_eq, ih]

/-- Statements that are not moved link to the same instructions. -/
theorem links_of_mirrors (h : List.Forall₂ (Mirrors ρ 0) statements statements')
    (hlinks : List.Forall₂ (Links labels) statements entries)
    (hlabels : ∀ name address, labels.lookup name = some address →
      labels'.lookup (ρ name) = some address) :
    List.Forall₂ (Links labels') statements' entries := by
  induction h generalizing entries with
  | nil =>
    cases hlinks
    exact .nil
  | cons hs _ ih =>
    obtain ⟨e, rest, he, hrest, rfl⟩ := List.forall₂_cons_left_iff.1 hlinks
    exact .cons (hs.links he hlabels) (ih hrest)

theorem exists_links_of_mirrors (h : List.Forall₂ (Mirrors ρ start) statements statements')
    (hlinks : List.Forall₂ (Links labels) statements entries)
    (hlabels : ∀ name address, labels.lookup name = some address →
      ∃ address' : Nat, labels'.lookup (ρ name) = some address' ∧ Slot.Fits address') :
    ∃ entries', List.Forall₂ (Links labels') statements' entries' := by
  apply exists_forall₂
  intro s' hs'
  obtain ⟨s, hs, hmirrors⟩ := exists_of_forall₂ h.flip hs'
  obtain ⟨e, -, he⟩ := exists_of_forall₂ hlinks hs
  exact hmirrors.exists_links he hlabels

end Statement

namespace Assembly

/-! ## Assemblies -/

/-- The second assembly has what `start` has, and behind it what the first one has,
    with other names for the labels. `P` holds of all labels that are ever defined. -/
structure Mirrors (ρ : Text → Text) (P : Text → Prop) (start a a' : Assembly) : Prop where
  size : a'.size = start.size + a.size
  statements : ∃ statements, a'.statements.toList = start.statements.toList ++ statements ∧
    List.Forall₂ (Statement.Mirrors ρ start.size) a.statements.toList statements
  named : ∀ name address, a.labels.lookup name = some address → P name
  labels : ∀ name address, a.labels.lookup name = some address →
    a'.labels.lookup (ρ name) = some (start.size + address)
  fresh : ∀ name, P name → a.labels.lookup name = none → a'.labels.lookup (ρ name) = none

/-- The renaming keeps names apart and makes no empty ones. -/
structure Renaming (ρ : Text → Text) (P : Text → Prop) : Prop where
  injective : ∀ name other, P name → P other → ρ name = ρ other → name = other
  nonempty : ∀ name, P name → ρ name ≠ []

theorem renaming_id {P : Text → Prop} (h : ∀ name, P name → name ≠ []) : Renaming id P :=
  ⟨fun _ _ _ _ => id, h⟩

variable {ρ : Text → Text} {P : Text → Prop} {start a a' b c : Assembly} {line line' : Text}
  {lines lines' : List Text}

/-- Before any line there is nothing to mirror. -/
theorem mirrors_start (h : ∀ name, P name → start.labels.lookup (ρ name) = none) :
    Mirrors ρ P start empty start :=
  ⟨rfl, ⟨[], (List.append_nil _).symm, .nil⟩, nofun, nofun, fun name hname _ => h name hname⟩

theorem Mirrors.congr {d d' : Assembly} (h : Mirrors ρ P start a a')
    (ha : d.size = a.size ∧ d.statements = a.statements ∧ d.labels = a.labels)
    (ha' : d'.size = a'.size ∧ d'.statements = a'.statements ∧ d'.labels = a'.labels) :
    Mirrors ρ P start d d' := by
  obtain ⟨hsize, hstatements, hlabels⟩ := ha
  obtain ⟨hsize', hstatements', hlabels'⟩ := ha'
  refine ⟨?_, ?_, ?_, ?_, ?_⟩
  · rw [hsize', hsize, h.size]
  · rw [hstatements', hstatements]
    exact h.statements
  · rw [hlabels]
    exact h.named
  · rw [hlabels, hlabels']
    exact h.labels
  · rw [hlabels, hlabels']
    exact h.fresh

section Alone

variable {name : Text} {address : Nat}

/-- An assembly that is not moved has the same addresses. -/
theorem Mirrors.lookup_eq (h : Mirrors ρ P empty a a')
    (hfound : a.labels.lookup name = some address) : a'.labels.lookup (ρ name) = some address := by
  have hlabels := h.labels name address hfound
  change a'.labels.lookup (ρ name) = some (0 + address) at hlabels
  rwa [Nat.zero_add] at hlabels

theorem Mirrors.forall₂_statements (h : Mirrors ρ P empty a a') :
    List.Forall₂ (Statement.Mirrors ρ 0) a.statements.toList a'.statements.toList := by
  obtain ⟨statements, hstatements, hmirrors⟩ := h.statements
  change a'.statements.toList = [] ++ statements at hstatements
  rw [hstatements]
  exact hmirrors

end Alone

theorem Mirrors.define (hρ : Renaming ρ P) (h : Mirrors ρ P start a a') {label : Text}
    (hlabel : P label) (hdefine : define label a = .ok () b) :
    ∃ b', define (ρ label) a' = .ok () b' ∧ Mirrors ρ P start b b' := by
  obtain ⟨-, hnew, rfl⟩ := define_eq_ok.1 hdefine
  refine ⟨_, define_eq_ok.2 ⟨hρ.nonempty label hlabel, h.fresh label hlabel hnew, rfl⟩, ?_⟩
  have hne : ∀ name, P name → name ≠ label → ρ name ≠ ρ label := fun name hname hne heq =>
    hne (hρ.injective name label hname hlabel heq)
  refine ⟨h.size, h.statements, fun name address hfound => ?_, fun name address hfound => ?_,
    fun name hname hnone => ?_⟩
  · rw [List.lookup_cons] at hfound
    split at hfound
    · rename_i heq
      rwa [beq_iff_eq.1 heq]
    · exact h.named name address hfound
  · rw [List.lookup_cons] at hfound ⊢
    by_cases heq : name = label
    · subst heq
      simpa [h.size] using hfound
    · rw [beq_false_of_ne heq] at hfound
      rw [beq_false_of_ne (hne name (h.named name address hfound) heq)]
      exact h.labels name address hfound
  · rw [List.lookup_cons] at hnone ⊢
    by_cases heq : name = label
    · simp [heq] at hnone
    · rw [beq_false_of_ne heq] at hnone
      rw [beq_false_of_ne (hne name hname heq)]
      exact h.fresh name hname hnone

theorem Mirrors.forM_define (hρ : Renaming ρ P) (h : Mirrors ρ P start a a')
    {labels : List Text} (hlabels : ∀ label ∈ labels, P label)
    (hdefine : labels.forM Assembly.define a = .ok () b) :
    ∃ b', (labels.map ρ).forM Assembly.define a' = .ok () b' ∧ Mirrors ρ P start b b' := by
  induction labels generalizing a a' with
  | nil =>
    cases hdefine
    exact ⟨a', rfl, h⟩
  | cons label labels ih =>
    obtain ⟨mid, hfirst, hrest⟩ := forM_cons_eq_ok.1 hdefine
    obtain ⟨mid', hfirst', hmid⟩ := h.define hρ (hlabels label List.mem_cons_self) hfirst
    obtain ⟨b', hrest', hb⟩ := ih hmid (fun l hl => hlabels l (List.mem_cons_of_mem _ hl)) hrest
    exact ⟨b', forM_cons_eq_ok.2 ⟨mid', hfirst', hrest'⟩, hb⟩

theorem Mirrors.emit (h : Mirrors ρ P start a a') {op : Opcode} {arguments : List Argument}
    (hemit : emit op arguments a = .ok () b) :
    ∃ b', emit op (arguments.map (Argument.rename ρ)) a' = .ok () b' ∧
      Mirrors ρ P start b b' := by
  cases hemit
  refine ⟨_, rfl, ?_⟩
  obtain ⟨statements, hstatements, hmirrors⟩ := h.statements
  let s : Statement := ⟨a.line, a.size, op, arguments⟩
  let s' : Statement := ⟨a'.line, a'.size, op, arguments.map (Argument.rename ρ)⟩
  have hs : Statement.Mirrors ρ start.size s s' := ⟨h.size, rfl, rfl⟩
  refine ⟨?_, ⟨statements ++ [s'], ?_, ?_⟩, h.named, h.labels, h.fresh⟩
  · change a'.size + s'.bytes.length = start.size + (a.size + s.bytes.length)
    rw [hs.bytes_eq, h.size, Nat.add_assoc]
  · simp [hstatements, s']
  · rw [Array.toList_push]
    exact List.rel_append hmirrors (.cons hs .nil)

/-- An accepted line is mirrored by what recasts it. -/
theorem Mirrors.feed (hρ : Renaming ρ P) (h : Mirrors ρ P start a a')
    (hline : (SourceLine.parse line).Recasts ρ (SourceLine.parse line'))
    (hlabels : ∀ label ∈ (SourceLine.parse line).labels, P label)
    (hfeed : feed line a = .ok () b) :
    ∃ b', feed line' a' = .ok () b' ∧ Mirrors ρ P start b b' := by
  obtain ⟨mid, hdefine, hinstruction⟩ := feed_eq_ok.1 hfeed
  have hnext : Mirrors ρ P start a.nextLine a'.nextLine := h.congr ⟨rfl, rfl, rfl⟩ ⟨rfl, rfl, rfl⟩
  obtain ⟨mid', hdefine', hmid⟩ := hnext.forM_define hρ hlabels hdefine
  simp only [feed_eq_ok]
  generalize SourceLine.parse line = s at hline hinstruction hdefine'
  generalize SourceLine.parse line' = s' at hline
  cases hline with
  | bare labels =>
    subst hinstruction
    exact ⟨mid', ⟨mid', hdefine', rfl⟩, hmid⟩
  | instruction recast =>
    obtain ⟨op, arguments, hop, hread, hemit⟩ := feedInstruction_eq_ok.1 hinstruction
    obtain ⟨hop', hread'⟩ := recast op arguments hop hread
    obtain ⟨b', hemit', hb⟩ := hmid.emit hemit
    exact ⟨b', ⟨mid', hdefine', feedInstruction_eq_ok.2 ⟨op, _, hop', hread', hemit'⟩⟩, hb⟩

/-! ## Accepted lines -/

theorem ne_nil_of_forM_define {labels : List Text} (h : labels.forM define a = .ok () b) :
    ∀ label ∈ labels, label ≠ [] := by
  induction labels generalizing a with
  | nil => exact nofun
  | cons first labels ih =>
    obtain ⟨mid, hdefine, hrest⟩ := forM_cons_eq_ok.1 h
    obtain ⟨hne, -, -⟩ := define_eq_ok.1 hdefine
    exact List.forall_mem_cons.2 ⟨hne, ih hrest⟩

/-- Every line of an accepted source is met and accepted. -/
theorem exists_meets_of_mem {source : Text} (h : ofSource source = .ok () c)
    (hline : line ∈ Text.lines source) :
    ∃ a b, Meets empty (Text.lines source) line a ∧ feed line a = .ok () b := by
  obtain ⟨before, rest, hsplit⟩ := List.append_of_mem hline
  rw [ofSource, hsplit] at h
  obtain ⟨a, hbefore, hrest⟩ := forM_append_eq_ok.1 h
  obtain ⟨b, hfeed, -⟩ := forM_cons_eq_ok.1 hrest
  exact ⟨a, b, meets_iff.2 ⟨before, rest, hsplit, hbefore⟩, hfeed⟩

theorem mem_labels_of_defines {source name : Text} {address : Nat}
    (h : ofSource source = .ok () a) (hdefines : Defines source name address) :
    name ∈ a.labels.map Prod.fst := by
  obtain ⟨before, after, hlabels, -⟩ :=
    List.lookup_eq_some_iff.1 ((lookup_iff_defines h name address).2 hdefines)
  rw [hlabels]
  simp

/-- Some line of the source defines the label. -/
def Declares (source name : Text) : Prop :=
  ∃ address, Defines source name address

/-- Every label of an accepted source has a name, and the source declares it. -/
theorem declares_of_mem {source label : Text} (h : ofSource source = .ok () c)
    (hline : line ∈ Text.lines source) (hlabel : label ∈ (SourceLine.parse line).labels) :
    label ≠ [] ∧ Declares source label := by
  obtain ⟨a, b, hmeets, hfeed⟩ := exists_meets_of_mem h hline
  obtain ⟨mid, hdefine, -⟩ := feed_eq_ok.1 hfeed
  exact ⟨ne_nil_of_forM_define hdefine label hlabel, a.bytes.length, line, a, hmeets, hlabel, rfl⟩

/-! ## Lines -/

theorem feed_idle (h : SourceLine.parse line = .idle) (a : Assembly) :
    feed line a = .ok () a.nextLine := by
  rw [feed_eq_ok, h]
  exact ⟨a.nextLine, rfl, rfl⟩

/-- Lines that say nothing are accepted, and only the lines are counted. -/
theorem forM_feed_idle (h : ∀ line ∈ lines, SourceLine.parse line = .idle) (a : Assembly) :
    lines.forM feed a = .ok () { a with line := a.line + lines.length } := by
  induction lines generalizing a with
  | nil => rfl
  | cons line lines ih =>
    refine forM_cons_eq_ok.2 ⟨_, feed_idle (h line List.mem_cons_self) a, ?_⟩
    rw [ih fun l hl => h l (List.mem_cons_of_mem line hl)]
    simp only [nextLine, List.length_cons, Nat.add_assoc, Nat.add_comm 1]

theorem contents_append (lines lines' : List Text) :
    contents (lines ++ lines') = contents lines ++ contents lines' := by
  simp [contents]

theorem contents_cons_of_idle (h : SourceLine.parse line = .idle) :
    contents (line :: lines) = contents lines := by
  simp [contents, h]

theorem contents_cons_of_ne (h : SourceLine.parse line ≠ .idle) :
    contents (line :: lines) = SourceLine.parse line :: contents lines := by
  simp [contents, h]

theorem contents_eq_nil (h : contents lines = []) :
    ∀ line ∈ lines, SourceLine.parse line = .idle := by
  simpa [contents] using h

theorem contents_map_dropReturn (lines : List Text) :
    contents (lines.map Text.dropReturn) = contents lines := by
  have hparse : SourceLine.parse ∘ Text.dropReturn = SourceLine.parse := by
    funext line
    exact SourceLine.parse_congr (Text.trim_dropReturn line)
  rw [contents, List.map_map, hparse]
  rfl

/-- The lines of a source say what the stretches between its line feeds say. -/
theorem contents_lines (source : Text) :
    contents (Text.lines source) = contents (Text.cut (· = '\n') source) := by
  obtain ⟨init, last, hcut⟩ :=
    List.eq_nil_or_concat (Text.cut (· = '\n') source) |>.resolve_left (Text.cut_ne_nil _ _)
  rw [List.concat_eq_append] at hcut
  rw [Text.lines, hcut, Text.linesOf_append (List.cons_ne_nil last []), contents_append,
    contents_append, contents_map_dropReturn, Text.linesOf]
  split
  · rename_i hlast
    rw [hlast]
    rfl
  · rfl

/-- The line that says the first that lines say. -/
theorem contents_eq_cons {s : SourceLine} {rest : List SourceLine}
    (h : contents lines = s :: rest) :
    ∃ idles line lines', lines = idles ++ line :: lines' ∧
      (∀ l ∈ idles, SourceLine.parse l = .idle) ∧ SourceLine.parse line = s ∧
      contents lines' = rest := by
  induction lines with
  | nil => cases h
  | cons line lines ih =>
    by_cases hline : SourceLine.parse line = .idle
    · rw [contents_cons_of_idle hline] at h
      obtain ⟨idles, other, lines', rfl, hidles, hs, hrest⟩ := ih h
      exact ⟨line :: idles, other, lines', rfl, List.forall_mem_cons.2 ⟨hline, hidles⟩, hs, hrest⟩
    · rw [contents_cons_of_ne hline] at h
      obtain ⟨rfl, rfl⟩ := List.cons.inj h
      exact ⟨[], line, lines, rfl, nofun, rfl, rfl⟩

theorem forall₂_recasts_id (contents : List SourceLine) :
    List.Forall₂ (SourceLine.Recasts id) contents contents :=
  List.forall₂_same.2 fun s _ => .refl s

/-- Accepted lines are mirrored by any lines whose contents recast theirs. -/
theorem Mirrors.forM_feed (hρ : Renaming ρ P) (h : Mirrors ρ P start a a')
    (hcontents : List.Forall₂ (SourceLine.Recasts ρ) (contents lines) (contents lines'))
    (hlabels : ∀ line ∈ lines, ∀ label ∈ (SourceLine.parse line).labels, P label)
    (hfeed : lines.forM Assembly.feed a = .ok () b) :
    ∃ b', lines'.forM Assembly.feed a' = .ok () b' ∧ Mirrors ρ P start b b' := by
  induction lines generalizing a a' lines' with
  | nil =>
    cases hfeed
    have hidle := contents_eq_nil (List.forall₂_nil_left_iff.1 hcontents)
    exact ⟨_, forM_feed_idle hidle a', h.congr ⟨rfl, rfl, rfl⟩ ⟨rfl, rfl, rfl⟩⟩
  | cons line lines ih =>
    obtain ⟨mid, hfirst, hrest⟩ := forM_cons_eq_ok.1 hfeed
    have hlabels' := fun l hl => hlabels l (List.mem_cons_of_mem line hl)
    by_cases hline : SourceLine.parse line = .idle
    · rw [feed_idle hline] at hfirst
      cases hfirst
      rw [contents_cons_of_idle hline] at hcontents
      have hnext : Mirrors ρ P start a.nextLine a' := h.congr ⟨rfl, rfl, rfl⟩ ⟨rfl, rfl, rfl⟩
      exact ih hnext hcontents hlabels' hrest
    · rw [contents_cons_of_ne hline] at hcontents
      obtain ⟨s', rest', hs', hrest', hcontents'⟩ := List.forall₂_cons_left_iff.1 hcontents
      obtain ⟨idles, line', others, rfl, hidles, rfl, rfl⟩ := contents_eq_cons hcontents'
      have hskip := forM_feed_idle hidles a'
      have hskipped : Mirrors ρ P start a { a' with line := a'.line + idles.length } :=
        h.congr ⟨rfl, rfl, rfl⟩ ⟨rfl, rfl, rfl⟩
      obtain ⟨mid', hfirst', hmid⟩ :=
        hskipped.feed hρ hs' (hlabels line List.mem_cons_self) hfirst
      obtain ⟨b', hothers, hb⟩ := ih hmid hrest' hlabels' hrest
      exact ⟨b', forM_append_eq_ok.2 ⟨_, hskip, forM_cons_eq_ok.2 ⟨mid', hfirst', hothers⟩⟩, hb⟩

end Assembly

end StackMachine
