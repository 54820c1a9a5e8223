-- SUMMARY: What the source lines add to an assembly, one after the other.
import StackMachine.Assembly.Basic

/-!
# The forward pass

An accepted line defines its labels at the present offset, and then adds its
statement if it carries an instruction. `Assembly.Takes` follows the lines and
their statements, `Assembly.Meets` says how an assembly stands before one of the
lines. Labels that are defined stay as they are.
-/

namespace StackMachine

namespace Assembly

variable {a b c : Assembly} {line : Text} {lines : List Text}

/-! ## Taking things one after the other -/

/-- Two steps are accepted if each is. -/
theorem bind_eq_ok {x : Assembling α} {f : α → Assembling β} {r : β} :
    (x >>= f) a = .ok r c ↔ ∃ u b, x a = .ok u b ∧ f u b = .ok r c := by
  simp only [Bind.bind, EStateM.bind]
  cases x a with
  | ok u b =>
    refine ⟨fun h => ⟨u, b, rfl, h⟩, fun ⟨_, _, hx, h⟩ => ?_⟩
    cases hx
    exact h
  | error e b => exact ⟨fun h => (nomatch h), fun ⟨_, _, hx, _⟩ => (nomatch hx)⟩

theorem forM_cons_eq_ok {f : α → Assembling Unit} {x : α} {xs : List α} :
    (x :: xs).forM f a = .ok () c ↔ ∃ b, f x a = .ok () b ∧ xs.forM f b = .ok () c :=
  bind_eq_ok.trans ⟨fun ⟨_, b, h⟩ => ⟨b, h⟩, fun ⟨b, h⟩ => ⟨(), b, h⟩⟩

theorem forM_append_eq_ok {f : α → Assembling Unit} {xs ys : List α} :
    (xs ++ ys).forM f a = .ok () c ↔ ∃ b, xs.forM f a = .ok () b ∧ ys.forM f b = .ok () c := by
  induction xs generalizing a with
  | nil =>
    constructor
    · exact fun h => ⟨a, rfl, h⟩
    · rintro ⟨b, hnil, h⟩
      cases hnil
      exact h
  | cons x xs ih =>
    simp only [List.cons_append, forM_cons_eq_ok, ih]
    exact ⟨fun ⟨d, hd, b, hb, hc⟩ => ⟨b, ⟨d, hd, hb⟩, hc⟩,
      fun ⟨b, ⟨d, hd, hb⟩, hc⟩ => ⟨d, hd, b, hb, hc⟩⟩

section Outcomes

variable {x : Assembling α} {g : α → Assembling β} {u : α} {e : SyntaxError}

theorem bind_of_ok (h : x a = .ok u b) : (x >>= g) a = g u b := by
  simp only [Bind.bind, EStateM.bind, h]

theorem bind_of_error (h : x a = .error e b) : (x >>= g) a = .error e b := by
  simp only [Bind.bind, EStateM.bind, h]

variable {f : α → Assembling Unit} {y : α} {ys zs : List α}

theorem forM_cons_of_ok (h : f y a = .ok () b) : (y :: ys).forM f a = ys.forM f b :=
  bind_of_ok h

theorem forM_cons_of_error (h : f y a = .error e b) : (y :: ys).forM f a = .error e b :=
  bind_of_error h

theorem forM_append_of_ok (h : ys.forM f a = .ok () b) : (ys ++ zs).forM f a = zs.forM f b := by
  induction ys generalizing a with
  | nil =>
    cases h
    rfl
  | cons y ys ih =>
    obtain ⟨mid, hy, hrest⟩ := forM_cons_eq_ok.1 h
    rw [← ih hrest]
    exact forM_cons_of_ok hy

/-- Refusing one of them refuses all. -/
theorem forM_append_of_error (h : ys.forM f a = .error e b) :
    (ys ++ zs).forM f a = .error e b := by
  induction ys generalizing a with
  | nil => cases h
  | cons y ys ih =>
    cases hy : f y a with
    | error e' c =>
      rw [forM_cons_of_error hy] at h
      rw [← h]
      exact forM_cons_of_error hy
    | ok _ c =>
      rw [forM_cons_of_ok hy] at h
      rw [← ih h]
      exact forM_cons_of_ok hy

end Outcomes

/-! ## Labels -/

theorem define_eq_ok {label : Text} :
    define label a = .ok () b ↔ label ≠ [] ∧ a.labels.lookup label = none ∧
      b = { a with labels := (label, a.size) :: a.labels } := by
  unfold define
  split
  · rename_i hempty
    exact ⟨fun h => (nomatch h), fun h => absurd hempty h.1⟩
  · rename_i hne
    split
    · rename_i hsome
      refine ⟨fun h => (nomatch h), fun h => ?_⟩
      rw [h.2.1] at hsome
      cases hsome
    · rename_i hnone
      refine ⟨fun h => ?_, fun h => ?_⟩
      · cases h
        exact ⟨hne, Option.not_isSome_iff_eq_none.1 hnone, rfl⟩
      · rw [h.2.2]

/-- The labels of a line change nothing but the labels, and are new. -/
theorem forM_define_eq_ok {labels : List Text} (h : labels.forM define a = .ok () b) :
    b.line = a.line ∧ b.statements = a.statements ∧ b.size = a.size ∧
      ∀ name address, b.labels.lookup name = some address ↔
        a.labels.lookup name = some address ∨ name ∈ labels ∧ address = a.size := by
  induction labels generalizing a with
  | nil =>
    cases h
    exact ⟨rfl, rfl, rfl, fun name address => by simp⟩
  | cons label labels ih =>
    obtain ⟨mid, hdefine, hrest⟩ := forM_cons_eq_ok.1 h
    obtain ⟨-, hnew, rfl⟩ := define_eq_ok.1 hdefine
    obtain ⟨hline, hstatements, hsize, hlookup⟩ := ih hrest
    refine ⟨hline, hstatements, hsize, fun name address => ?_⟩
    rw [hlookup, List.mem_cons, List.lookup_cons]
    by_cases hname : name = label
    · subst hname
      simp [hnew, eq_comm]
    · simp [hname, beq_false_of_ne hname]

/-! ## Lines -/

theorem feedInstruction_eq_ok {mnemonic operands : Text} :
    feedInstruction mnemonic operands a = .ok () b ↔
      ∃ op arguments, Opcode.ofMnemonic? mnemonic = some op ∧
        Argument.readAll op.layout operands = (arguments, none) ∧
        emit op arguments a = .ok () b := by
  unfold feedInstruction
  cases Opcode.ofMnemonic? mnemonic with
  | none => exact ⟨fun h => (nomatch h), fun ⟨_, _, h, _⟩ => (nomatch h)⟩
  | some op =>
    dsimp only
    rw [bind_eq_ok]
    constructor
    · rintro ⟨⟨⟩, mid, hemit, hmistake⟩
      cases hread : Argument.readAll op.layout operands with
      | mk arguments mistake =>
        rw [hread] at hemit hmistake
        cases mistake with
        | none =>
          cases hmistake
          exact ⟨op, arguments, rfl, hread, hemit⟩
        | some mistake => cases hmistake
    · rintro ⟨op', arguments, hop, hread, hemit⟩
      cases hop
      rw [hread]
      exact ⟨(), b, hemit, rfl⟩

/-- The assembly that begins the next line. -/
def nextLine (a : Assembly) : Assembly :=
  { a with line := a.line + 1 }

theorem feed_eq_ok :
    feed line a = .ok () c ↔
      ∃ b, (SourceLine.parse line).labels.forM define a.nextLine = .ok () b ∧
        match (SourceLine.parse line).instruction with
        | none => c = b
        | some (mnemonic, operands) => feedInstruction mnemonic operands b = .ok () c := by
  refine Iff.trans bind_eq_ok ?_
  constructor
  · rintro ⟨⟨⟩, mid, hline, h⟩
    cases hline
    obtain ⟨⟨⟩, b, hlabels, h⟩ := bind_eq_ok.1 h
    refine ⟨b, hlabels, ?_⟩
    cases hi : (SourceLine.parse line).instruction with
    | none =>
      rw [hi] at h
      cases h
      rfl
    | some i =>
      rw [hi] at h
      exact h
  · rintro ⟨b, hlabels, h⟩
    refine ⟨(), a.nextLine, rfl, bind_eq_ok.2 ⟨(), b, hlabels, ?_⟩⟩
    cases hi : (SourceLine.parse line).instruction with
    | none =>
      rw [hi] at h
      cases h
      rfl
    | some i =>
      rw [hi] at h
      exact h

/-- The statement of a line that carries the instruction. -/
structure Carries (a : Assembly) (line mnemonic operands : Text) (s : Statement) : Prop where
  instruction : (SourceLine.parse line).instruction = some (mnemonic, operands)
  opcode : Opcode.ofMnemonic? mnemonic = some s.opcode
  arguments : Argument.readAll s.opcode.layout operands = (s.arguments, none)
  offset : s.offset = a.size

/-- Accepted lines add statements one after the other, each at the offset where
    the ones before it end. -/
inductive Takes : Assembly → List Text → List Statement → Assembly → Prop
  | nil {a : Assembly} : Takes a [] [] a
  | bare {a b c : Assembly} {line : Text} {lines : List Text} {statements : List Statement}
      (fed : feed line a = .ok () b) (instruction : (SourceLine.parse line).instruction = none)
      (size : b.size = a.size) (rest : Takes b lines statements c) :
      Takes a (line :: lines) statements c
  | carrying {a b c : Assembly} {line mnemonic operands : Text} {lines : List Text}
      {s : Statement} {statements : List Statement} (fed : feed line a = .ok () b)
      (carries : a.Carries line mnemonic operands s) (size : b.size = a.size + s.bytes.length)
      (rest : Takes b lines statements c) :
      Takes a (line :: lines) (s :: statements) c

theorem takes_of_forM (h : lines.forM feed a = .ok () c) :
    ∃ statements, Takes a lines statements c ∧
      c.statements.toList = a.statements.toList ++ statements := by
  induction lines generalizing a with
  | nil =>
    cases h
    exact ⟨[], .nil, (List.append_nil _).symm⟩
  | cons line lines ih =>
    obtain ⟨b, hfeed, hrest⟩ := forM_cons_eq_ok.1 h
    obtain ⟨statements, htakes, hstatements⟩ := ih hrest
    obtain ⟨mid, hlabels, hinstruction⟩ := feed_eq_ok.1 hfeed
    obtain ⟨-, hmid, hsize, -⟩ := forM_define_eq_ok hlabels
    cases hi : (SourceLine.parse line).instruction with
    | none =>
      rw [hi] at hinstruction
      subst hinstruction
      refine ⟨statements, .bare hfeed hi hsize htakes, ?_⟩
      rw [hstatements, hmid]
      rfl
    | some i =>
      rw [hi] at hinstruction
      obtain ⟨op, arguments, hop, hread, hemit⟩ := feedInstruction_eq_ok.1 hinstruction
      cases hemit
      refine ⟨_, .carrying hfeed ⟨hi, hop, hread, hsize⟩ (congrArg (· + _) hsize) htakes, ?_⟩
      rw [hstatements, Array.toList_push, hmid, List.append_assoc]
      rfl

/-! ## Before a line -/

/-- When the lines are taken one after the other, the assembly is `b` before the
    line `line`. -/
inductive Meets : Assembly → List Text → Text → Assembly → Prop
  | here {a : Assembly} {line : Text} {lines : List Text} : Meets a (line :: lines) line a
  | there {a b c : Assembly} {first line : Text} {lines : List Text}
      (fed : feed first a = .ok () b) (rest : Meets b lines line c) :
      Meets a (first :: lines) line c

theorem meets_iff : Meets a lines line b ↔
    ∃ before rest, lines = before ++ line :: rest ∧ before.forM feed a = .ok () b := by
  constructor
  · intro h
    induction h with
    | here => exact ⟨[], _, rfl, rfl⟩
    | there fed _ ih =>
      obtain ⟨before, rest, rfl, hbefore⟩ := ih
      exact ⟨_ :: before, rest, rfl, forM_cons_eq_ok.2 ⟨_, fed, hbefore⟩⟩
  · rintro ⟨before, rest, rfl, hbefore⟩
    induction before generalizing a with
    | nil =>
      cases hbefore
      exact .here
    | cons first before ih =>
      obtain ⟨mid, hfeed, hrest⟩ := forM_cons_eq_ok.1 hbefore
      exact .there hfeed (ih hrest)

/-- The statements of the lines before a line, and those of the lines from it on. -/
theorem Takes.split_of_meets {statements : List Statement} (h : Takes a lines statements c)
    (hmeets : Meets a lines line b) :
    ∃ before after rest, statements = before ++ after ∧ Takes b (line :: rest) after c ∧
      b.size = a.size + (before.flatMap Statement.bytes).length := by
  induction hmeets generalizing statements with
  | here => exact ⟨[], statements, _, rfl, h, rfl⟩
  | there fed _ ih =>
    cases h with
    | bare fed' _ size rest =>
      rw [fed] at fed'
      cases fed'
      rw [← size]
      exact ih rest
    | @carrying _ _ _ _ _ _ _ s _ fed' _ size rest =>
      rw [fed] at fed'
      cases fed'
      obtain ⟨before, after, lines, rfl, htakes, hsize⟩ := ih rest
      refine ⟨s :: before, after, lines, rfl, htakes, ?_⟩
      rw [hsize, size, List.flatMap_cons, List.length_append, Nat.add_assoc]

/-- The labels at the end are those of the lines, with the offsets before them. -/
theorem lookup_of_forM (h : lines.forM feed a = .ok () c) (name : Text) (address : Nat) :
    c.labels.lookup name = some address ↔
      a.labels.lookup name = some address ∨
        ∃ line b, Meets a lines line b ∧ name ∈ (SourceLine.parse line).labels ∧
          address = b.size := by
  induction lines generalizing a with
  | nil =>
    cases h
    exact ⟨.inl, fun h => h.elim id fun ⟨_, _, hmeets, _⟩ => (nomatch hmeets)⟩
  | cons first lines ih =>
    obtain ⟨b, hfeed, hrest⟩ := forM_cons_eq_ok.1 h
    have hfirst : b.labels.lookup name = some address ↔ a.labels.lookup name = some address ∨
        name ∈ (SourceLine.parse first).labels ∧ address = a.size := by
      obtain ⟨mid, hlabels, hinstruction⟩ := feed_eq_ok.1 hfeed
      obtain ⟨-, -, -, hlookup⟩ := forM_define_eq_ok hlabels
      have hsame : b.labels = mid.labels := by
        cases hi : (SourceLine.parse first).instruction with
        | none =>
          rw [hi] at hinstruction
          rw [hinstruction]
        | some i =>
          rw [hi] at hinstruction
          obtain ⟨op, arguments, -, -, hemit⟩ := feedInstruction_eq_ok.1 hinstruction
          cases hemit
          rfl
      rw [hsame]
      exact hlookup name address
    rw [ih hrest, hfirst, or_assoc]
    refine or_congr_right ⟨fun h => ?_, fun ⟨line, d, hmeets, hname, haddress⟩ => ?_⟩
    · obtain ⟨hname, haddress⟩ | ⟨line, d, hmeets, hname, haddress⟩ := h
      · exact ⟨first, a, .here, hname, haddress⟩
      · exact ⟨line, d, .there hfeed hmeets, hname, haddress⟩
    · cases hmeets with
      | here => exact .inl ⟨hname, haddress⟩
      | there fed rest =>
        rw [hfeed] at fed
        cases fed
        exact .inr ⟨line, d, rest, hname, haddress⟩

/-! ## Sizes -/

/-- The size of an assembly is the number of its bytes. -/
def Sized (a : Assembly) : Prop :=
  a.size = a.bytes.length

theorem Takes.size_eq {statements : List Statement} (h : Takes a lines statements c) :
    c.size = a.size + (statements.flatMap Statement.bytes).length := by
  induction h with
  | nil => rfl
  | bare _ _ size _ ih => rw [ih, size]
  | carrying _ _ size _ ih =>
    rw [ih, size, List.flatMap_cons, List.length_append, Nat.add_assoc]

theorem Sized.of_forM (ha : a.Sized) (h : lines.forM feed a = .ok () c) : c.Sized := by
  obtain ⟨statements, htakes, hstatements⟩ := takes_of_forM h
  unfold Sized bytes
  rw [htakes.size_eq, hstatements, ha, List.flatMap_append, List.length_append]
  rfl

theorem Sized.of_feed (ha : a.Sized) (h : feed line a = .ok () b) : b.Sized := by
  have hline : [line].forM feed a = .ok () b := forM_cons_eq_ok.2 ⟨b, h, rfl⟩
  exact ha.of_forM hline

theorem Sized.of_meets (ha : a.Sized) (h : Meets a lines line b) : b.Sized := by
  induction h with
  | here => exact ha
  | there fed _ ih => exact ih (ha.of_feed fed)

theorem sized_empty : empty.Sized := rfl

/-! ## Definitions -/

/-- A line of the source defines the label, and `address` is the number of bytes
    that the lines before it have made. -/
def Defines (source name : Text) (address : Nat) : Prop :=
  ∃ line a, Meets empty (Text.lines source) line a ∧ name ∈ (SourceLine.parse line).labels ∧
    address = a.bytes.length

theorem lookup_iff_defines {source : Text} (h : ofSource source = .ok () a) (name : Text)
    (address : Nat) : a.labels.lookup name = some address ↔ Defines source name address := by
  rw [lookup_of_forM h]
  refine ⟨fun h => ?_, fun ⟨line, b, hmeets, hname, haddress⟩ => ?_⟩
  · obtain hempty | ⟨line, b, hmeets, hname, haddress⟩ := h
    · cases hempty
    · exact ⟨line, b, hmeets, hname, haddress.trans (sized_empty.of_meets hmeets)⟩
  · exact .inr ⟨line, b, hmeets, hname, haddress.trans (sized_empty.of_meets hmeets).symm⟩

end Assembly

end StackMachine
