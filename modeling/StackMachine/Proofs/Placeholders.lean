-- SUMMARY: The slots that references leave open, and filling them in one after the other in place.
import StackMachine.Proofs.Increments
import StackMachine.Proofs.References

/-!
# Placeholders

A reference leaves a slot of zeros among the bytes of the forward pass. Filling
the slots in place, one after the other, gives what linking gives, and never
writes outside of the bytes. It fails at the first reference whose label has no
address, and changes nothing but the slots. All this holds after any lines,
accepted or refused.
-/

namespace StackMachine

/-! ## Writing in place -/

namespace Bytes

/-- Write a slot over the bytes at an offset. It must lie within them. -/
def overwrite? (b : Bytes) (offset : Nat) (slot : Bytes) : Option Bytes :=
  if offset + slot.length ≤ b.length then
    some (b.take offset ++ slot ++ b.drop (offset + slot.length))
  else none

theorem overwrite?_append {front old slot : Bytes} (h : old.length = slot.length)
    (back : Bytes) :
    overwrite? (front ++ old ++ back) front.length slot = some (front ++ slot ++ back) := by
  have hbound : front.length + slot.length ≤ (front ++ old ++ back).length := by
    simp only [List.length_append]
    omega
  have htake : (front ++ old ++ back).take front.length = front := by
    rw [List.append_assoc, List.take_left]
  have hdrop : (front ++ old ++ back).drop (front.length + slot.length) = back := by
    rw [← h, ← List.length_append, List.drop_left]
  rw [overwrite?, if_pos hbound, htake, hdrop]

/-- Nothing but the slot is changed. -/
theorem agree_of_overwrite? {b b' slot : Bytes} {offset : Nat}
    (h : overwrite? b offset slot = some b') :
    b'.length = b.length ∧
      ∀ i, i < offset ∨ offset + slot.length ≤ i → b'[i]? = b[i]? := by
  unfold overwrite? at h
  split at h
  · rename_i hbound
    cases h
    have htake : (b.take offset).length = offset := by
      rw [List.length_take]
      omega
    refine ⟨by simp only [List.length_append, List.length_drop, htake]; omega, fun i hi => ?_⟩
    obtain hi | hi := hi
    · rw [List.append_assoc, List.getElem?_append_left (by omega), List.getElem?_take_of_lt hi]
    · have hfront : (b.take offset ++ slot).length = offset + slot.length := by
        rw [List.length_append, htake]
      rw [List.getElem?_append_right (by omega), List.getElem?_drop, hfront,
        Nat.add_sub_cancel' hi]
  · cases h

end Bytes

/-- What is written for a reference once labels have addresses. -/
def Reference.slot (labels : Labels) (r : Reference) : Except SyntaxError Bytes :=
  match Argument.resolve labels (.reference r.label) with
  | .ok slot => .ok slot
  | .error mistake => .error ⟨r.line, mistake⟩

namespace Assembly

variable {a b c : Assembly} {labels : Labels} {lines : List Text}

/-- Fill in the slots of references one after the other, up to the first whose
    label has no address that fits. The result is `none` if a slot is not within
    the bytes. -/
def fill? (labels : Labels) : List Reference → Bytes → Option (Except SyntaxError Bytes)
  | [], code => some (.ok code)
  | r :: references, code =>
    match r.slot labels with
    | .error e => some (.error e)
    | .ok slot => (code.overwrite? r.offset slot).bind (fill? labels references)

/-! ## Filling and linking -/

theorem length_resolve {argument : Argument} {slot : Bytes}
    (h : argument.resolve labels = .ok slot) : slot.length = argument.bytes.length := by
  obtain ⟨o, hstands, rfl⟩ := Argument.resolve_eq_ok.1 h
  exact hstands.length_eq

theorem length_mapM_resolve {arguments : List Argument} {parts : List Bytes}
    (h : arguments.mapM (Argument.resolve labels) = .ok parts) :
    parts.flatten.length = (arguments.flatMap Argument.bytes).length := by
  obtain ⟨operands, hoperands, rfl⟩ := (mapM_eq_ok fun _ _ => Argument.resolve_eq_ok).1 h
  rw [← List.flatMap_def]
  exact length_flatMap_eq hoperands fun _ _ ho => ho.length_eq

/-- Filling the slots of arguments that stand between other bytes. -/
theorem fill?_arguments (labels : Labels) (line : Nat) (arguments : List Argument)
    (front back : Bytes) (others : List Reference) :
    fill? labels (Statement.referencesFrom line front.length arguments ++ others)
        (front ++ arguments.flatMap Argument.bytes ++ back) =
      match arguments.mapM (Argument.resolve labels) with
      | .ok parts => fill? labels others (front ++ parts.flatten ++ back)
      | .error mistake => some (.error ⟨line, mistake⟩) := by
  induction arguments generalizing front with
  | nil => rfl
  | cons argument arguments ih =>
    rw [List.mapM_cons]
    cases argument with
    | operand o =>
      have hrest := ih (front ++ o.encode)
      rw [List.length_append] at hrest
      rw [Statement.referencesFrom, List.flatMap_cons, Argument.bytes, ← List.append_assoc front,
        hrest]
      cases arguments.mapM (Argument.resolve labels) with
      | error mistake => rfl
      | ok parts =>
        simp [Argument.resolve, bind, Except.bind, pure, Except.pure]
    | reference name =>
      simp only [Statement.referencesFrom, List.cons_append, fill?, Reference.slot]
      cases hslot : Argument.resolve labels (.reference name) with
      | error mistake => rfl
      | ok slot =>
        have hlength : Slot.blank.length = slot.length := (length_resolve hslot).symm
        have hrest := ih (front ++ slot)
        rw [List.length_append, ← hlength, Slot.blank, List.length_replicate] at hrest
        have hwrite : (front ++ Slot.blank ++ (arguments.flatMap Argument.bytes ++ back)).overwrite?
            front.length slot = _ := Bytes.overwrite?_append hlength _
        simp only [List.flatMap_cons, Argument.bytes, List.append_assoc] at hwrite hrest ⊢
        simp only [hwrite, Option.bind_some, hrest]
        cases arguments.mapM (Argument.resolve labels) with
        | error mistake => rfl
        | ok parts => simp [bind, Except.bind, pure, Except.pure]

/-- The statements lie end to end from one offset to another. -/
def Laid : (start : Nat) → List Statement → (stop : Nat) → Prop
  | start, [], stop => start = stop
  | start, s :: statements, stop =>
    s.offset = start ∧ Laid (start + s.bytes.length) statements stop

variable {start stop : Nat} {s : Statement} {statements : List Statement}

theorem Laid.stop_eq (h : Laid start statements stop) :
    stop = start + (statements.flatMap Statement.bytes).length := by
  induction statements generalizing start with
  | nil => exact h.symm
  | cons s statements ih =>
    rw [ih h.2, List.flatMap_cons, List.length_append, Nat.add_assoc]

theorem Laid.concat (h : Laid start statements s.offset) :
    Laid start (statements ++ [s]) (s.offset + s.bytes.length) := by
  induction statements generalizing start with
  | nil => exact ⟨h.symm, congrArg (· + _) h⟩
  | cons first statements ih => exact ⟨h.1, ih h.2⟩

/-- Filling the slots of statements in place is resolving them. -/
theorem Laid.fill?_eq (h : Laid start statements stop) {front : Bytes}
    (hfront : front.length = start) :
    fill? labels (statements.flatMap Statement.references)
        (front ++ statements.flatMap Statement.bytes) =
      some ((statements.mapM (Statement.resolve labels)).map (front ++ ·.flatten)) := by
  induction statements generalizing start front with
  | nil => rfl
  | cons s statements ih =>
    obtain ⟨hoffset, hrest⟩ := h
    have hopcode : (front ++ [s.opcode.byte]).length = s.offset + 1 := by
      rw [List.length_append, hfront, hoffset]
      rfl
    have hfill := fill?_arguments labels s.line s.arguments
      (front ++ [s.opcode.byte]) (statements.flatMap Statement.bytes)
      (statements.flatMap Statement.references)
    rw [hopcode] at hfill
    have hcode : front ++ (s :: statements).flatMap Statement.bytes =
        front ++ [s.opcode.byte] ++ s.arguments.flatMap Argument.bytes ++
          statements.flatMap Statement.bytes := by
      simp [Statement.bytes]
    rw [hcode, List.flatMap_cons, Statement.references, hfill, List.mapM_cons, Statement.resolve]
    cases hparts : s.arguments.mapM (Argument.resolve labels) with
    | error mistake => rfl
    | ok parts =>
      have hlength : (front ++ [s.opcode.byte] ++ parts.flatten).length =
          start + s.bytes.length := by
        rw [List.length_append, List.length_append, hfront, length_mapM_resolve hparts,
          Statement.bytes, List.length_cons, List.length_cons, List.length_nil]
        omega
      simp only [ih hrest hlength]
      cases statements.mapM (Statement.resolve labels) with
      | error e => rfl
      | ok codes => simp [bind, Except.bind, pure, Except.pure, Except.map]

/-! ## Where the slots are -/

theorem exists_of_mem_referencesFrom {line offset : Nat} {arguments : List Argument}
    {r : Reference} (h : r ∈ Statement.referencesFrom line offset arguments) :
    r.line = line ∧ ∃ front back, arguments.flatMap Argument.bytes =
      front ++ Slot.blank ++ back ∧ r.offset = offset + front.length := by
  induction arguments generalizing offset with
  | nil => cases h
  | cons argument arguments ih =>
    cases argument with
    | operand o =>
      obtain ⟨hline, front, back, hbytes, hoffset⟩ := ih h
      refine ⟨hline, o.encode ++ front, back, ?_, ?_⟩
      · rw [List.flatMap_cons, hbytes, Argument.bytes]
        simp
      · rw [hoffset, List.length_append, Nat.add_assoc]
    | reference name =>
      obtain rfl | h := List.mem_cons.1 h
      · exact ⟨rfl, [], _, rfl, rfl⟩
      · obtain ⟨hline, front, back, hbytes, hoffset⟩ := ih h
        refine ⟨hline, Slot.blank ++ front, back, ?_, ?_⟩
        · rw [List.flatMap_cons, hbytes, Argument.bytes]
          simp
        · rw [hoffset, List.length_append, ← Nat.add_assoc]
          rfl

/-- The slots of two references do not overlap, and the first comes first. -/
def Reference.Before (r r' : Reference) : Prop :=
  r.offset + Slot.width ≤ r'.offset

theorem pairwise_referencesFrom (line offset : Nat) (arguments : List Argument) :
    (Statement.referencesFrom line offset arguments).Pairwise Reference.Before := by
  induction arguments generalizing offset with
  | nil => exact .nil
  | cons argument arguments ih =>
    cases argument with
    | operand o => exact ih _
    | reference name =>
      refine .cons (fun r hr => ?_) (ih _)
      obtain ⟨-, front, back, -, hoffset⟩ := exists_of_mem_referencesFrom hr
      rw [Reference.Before, hoffset]
      exact Nat.le_add_right _ _

theorem exists_of_mem_references {r : Reference} (h : r ∈ s.references) :
    r.line = s.line ∧ ∃ front back, s.bytes = front ++ Slot.blank ++ back ∧
      r.offset = s.offset + front.length := by
  obtain ⟨hline, front, back, hbytes, hoffset⟩ := exists_of_mem_referencesFrom h
  refine ⟨hline, s.opcode.byte :: front, back, ?_, ?_⟩
  · rw [Statement.bytes, hbytes]
    rfl
  · rw [hoffset, List.length_cons]
    omega

/-- Every reference has a slot of zeros among the bytes. -/
theorem Laid.exists_slot (h : Laid start statements stop) {r : Reference}
    (hr : r ∈ statements.flatMap Statement.references) :
    ∃ front back, statements.flatMap Statement.bytes = front ++ Slot.blank ++ back ∧
      r.offset = start + front.length := by
  induction statements generalizing start with
  | nil => cases hr
  | cons s statements ih =>
    obtain ⟨rfl, hrest⟩ := h
    rw [List.flatMap_cons, List.mem_append] at hr
    obtain hr | hr := hr
    · obtain ⟨-, front, back, hbytes, hoffset⟩ := exists_of_mem_references hr
      refine ⟨front, back ++ statements.flatMap Statement.bytes, ?_, hoffset⟩
      rw [List.flatMap_cons, hbytes]
      simp
    · obtain ⟨front, back, hbytes, hoffset⟩ := ih hrest hr
      refine ⟨s.bytes ++ front, back, ?_, ?_⟩
      · rw [List.flatMap_cons, hbytes]
        simp
      · rw [hoffset, List.length_append, Nat.add_assoc]

theorem Laid.pairwise (h : Laid start statements stop) :
    (statements.flatMap Statement.references).Pairwise Reference.Before := by
  induction statements generalizing start with
  | nil => exact .nil
  | cons s statements ih =>
    obtain ⟨rfl, hrest⟩ := h
    rw [List.flatMap_cons, List.pairwise_append]
    refine ⟨pairwise_referencesFrom .., ih hrest, fun r hr r' hr' => ?_⟩
    obtain ⟨-, front, back, hbytes, hoffset⟩ := exists_of_mem_references hr
    obtain ⟨front', back', -, hoffset'⟩ := hrest.exists_slot hr'
    have hlength := congrArg List.length hbytes
    simp only [List.length_append, Slot.blank, List.length_replicate] at hlength
    rw [Reference.Before, hoffset, hoffset']
    omega

/-! ## After any lines -/

theorem Pushes.laid (h : Pushes b c) (hb : Laid 0 b.statements.toList b.size) :
    Laid 0 c.statements.toList c.size := by
  obtain rfl | ⟨s, -, hoffset, rfl⟩ := h
  · exact hb
  · rw [← hoffset] at hb
    simp only [push, Array.toList_push, ← hoffset]
    exact hb.concat

theorem laid_afterAll (lines : List Text) :
    Laid 0 (empty.afterAll lines).statements.toList (empty.afterAll lines).size := by
  induction lines using List.reverseRecOn with
  | nil => exact rfl
  | append_singleton lines line ih =>
    obtain ⟨b, htaken, hpushes⟩ := after_adds line (empty.afterAll lines)
    obtain ⟨-, hstatements, hsize, -⟩ := forM_define_eq_ok htaken
    rw [afterAll_concat]
    apply hpushes.laid
    rw [hstatements, hsize]
    exact ih

theorem sized_afterAll (lines : List Text) : (empty.afterAll lines).Sized := by
  have hstop := (laid_afterAll lines).stop_eq
  rw [Nat.zero_add] at hstop
  exact hstop

/-- Linking writes the slots in place, each of them within the bytes. -/
theorem fill?_afterAll (lines : List Text) :
    fill? (empty.afterAll lines).labels (empty.afterAll lines).references
      (empty.afterAll lines).bytes = some (empty.afterAll lines).link := by
  have hfront : ([] : Bytes).length = 0 := rfl
  exact (laid_afterAll lines).fill?_eq hfront

/-! ## Outcomes of filling -/

variable {references : List Reference} {code : Bytes} {result : Except SyntaxError Bytes}

/-- Filling succeeds if every reference has an address. -/
theorem ok_iff_of_fill? (h : fill? labels references code = some result) :
    (∃ program, result = .ok program) ↔ ∀ r ∈ references, ∃ slot, r.slot labels = .ok slot := by
  induction references generalizing code with
  | nil =>
    cases h
    simp
  | cons r references ih =>
    rw [fill?] at h
    cases hslot : r.slot labels with
    | error e =>
      rw [hslot] at h
      cases h
      simp [hslot]
    | ok slot =>
      rw [hslot] at h
      obtain ⟨code', -, hrest⟩ := Option.bind_eq_some_iff.1 h
      simp [ih hrest, hslot]

/-- The first element that stands out is the head, or else it is further on. -/
theorem exists_first_cons {p q : Reference → Prop} (r : Reference) :
    (∃ before r' rest, r :: references = before ++ r' :: rest ∧ (∀ r'' ∈ before, p r'') ∧ q r') ↔
      q r ∨ p r ∧ ∃ before r' rest, references = before ++ r' :: rest ∧
        (∀ r'' ∈ before, p r'') ∧ q r' := by
  constructor
  · rintro ⟨before, r', rest, hsplit, hbefore, hr'⟩
    cases before with
    | nil =>
      obtain ⟨rfl, -⟩ := List.cons.inj hsplit
      exact .inl hr'
    | cons first before =>
      obtain ⟨rfl, rfl⟩ := List.cons.inj hsplit
      obtain ⟨hfirst, hrest⟩ := List.forall_mem_cons.1 hbefore
      exact .inr ⟨hfirst, before, r', rest, rfl, hrest, hr'⟩
  · rintro (hr | ⟨hr, before, r', rest, rfl, hbefore, hr'⟩)
    · exact ⟨[], r, references, rfl, nofun, hr⟩
    · exact ⟨r :: before, r', rest, rfl, List.forall_mem_cons.2 ⟨hr, hbefore⟩, hr'⟩

/-- Filling fails as the first reference does that has no address. -/
theorem error_iff_of_fill? (h : fill? labels references code = some result) (e : SyntaxError) :
    result = .error e ↔ ∃ before r rest, references = before ++ r :: rest ∧
      (∀ r' ∈ before, ∃ slot, r'.slot labels = .ok slot) ∧ r.slot labels = .error e := by
  induction references generalizing code with
  | nil =>
    cases h
    simp
  | cons r references ih =>
    rw [exists_first_cons]
    rw [fill?] at h
    cases hslot : r.slot labels with
    | error e' =>
      rw [hslot] at h
      cases h
      simp
    | ok slot =>
      rw [hslot] at h
      obtain ⟨code', -, hrest⟩ := Option.bind_eq_some_iff.1 h
      rw [ih hrest]
      simp

theorem length_slot {r : Reference} {slot : Bytes} (h : r.slot labels = .ok slot) :
    slot.length = Slot.width := by
  unfold Reference.slot at h
  split at h
  · rename_i hresolve
    cases h
    exact length_resolve hresolve
  · cases h

/-- Filling changes nothing outside of the slots. -/
theorem agree_of_fill? {program : Bytes}
    (h : fill? labels references code = some (.ok program)) :
    program.length = code.length ∧
      ∀ i, (∀ r ∈ references, i < r.offset ∨ r.offset + Slot.width ≤ i) →
        program[i]? = code[i]? := by
  induction references generalizing code with
  | nil =>
    cases h
    exact ⟨rfl, fun _ _ => rfl⟩
  | cons r references ih =>
    rw [fill?] at h
    cases hslot : r.slot labels with
    | error e =>
      rw [hslot] at h
      cases h
    | ok slot =>
      rw [hslot] at h
      obtain ⟨code', hwrite, hrest⟩ := Option.bind_eq_some_iff.1 h
      obtain ⟨hlength, hagree⟩ := Bytes.agree_of_overwrite? hwrite
      obtain ⟨hlength', hagree'⟩ := ih hrest
      rw [length_slot hslot] at hagree
      refine ⟨hlength'.trans hlength, fun i hi => ?_⟩
      rw [hagree' i fun r' hr' => hi r' (List.mem_cons_of_mem r hr'),
        hagree i (hi r List.mem_cons_self)]

/-! ## Addresses -/

theorem slot_of_none {r : Reference} (h : labels.lookup r.label = none) :
    r.slot labels = .error ⟨r.line, .undefinedLabel r.label⟩ := by
  simp only [Reference.slot, Argument.resolve, h]
  rfl

theorem slot_of_some {r : Reference} {address : Nat} (h : labels.lookup r.label = some address)
    (hfits : Slot.Fits address) : r.slot labels = .ok (Slot.encode address) := by
  simp only [Reference.slot, Argument.resolve, h, Slot.encode?_of_fits hfits]
  rfl

/-- If all addresses fit, a reference fails only if its label is not defined. -/
theorem slot_eq_ok_iff {r : Reference}
    (hfits : ∀ name address, labels.lookup name = some address → Slot.Fits address) :
    (∃ slot, r.slot labels = .ok slot) ↔ ∃ address, labels.lookup r.label = some address := by
  cases hfound : labels.lookup r.label with
  | none => simp [slot_of_none hfound]
  | some address => simp [slot_of_some hfound (hfits _ _ hfound)]

theorem slot_eq_error_iff {r : Reference} {e : SyntaxError}
    (hfits : ∀ name address, labels.lookup name = some address → Slot.Fits address) :
    r.slot labels = .error e ↔
      labels.lookup r.label = none ∧ e = ⟨r.line, .undefinedLabel r.label⟩ := by
  cases hfound : labels.lookup r.label with
  | none => simp [slot_of_none hfound, eq_comm]
  | some address => simp [slot_of_some hfound (hfits _ _ hfound)]

theorem size_afterAll_le (before rest : List Text) :
    (empty.afterAll before).size ≤ (empty.afterAll (before ++ rest)).size := by
  induction rest using List.reverseRecOn with
  | nil => rw [List.append_nil]
  | append_singleton rest line ih =>
    rw [← List.append_assoc, afterAll_concat]
    exact ih.trans (grows_after line _).size

/-- The addresses of labels do not go beyond the end. -/
theorem le_size_of_lookup {name : Text} {address : Nat}
    (h : (empty.afterAll lines).labels.lookup name = some address) :
    address ≤ (empty.afterAll lines).size := by
  obtain ⟨before, line, rest, rfl, -, rfl⟩ := (lookup_afterAll ..).1 h
  exact size_afterAll_le before (line :: rest)

/-- The addresses of a program that is not too long fit a slot. -/
theorem fits_afterAll {name : Text} {address : Nat}
    (hsmall : (empty.afterAll lines).size < 2 ^ 55)
    (h : (empty.afterAll lines).labels.lookup name = some address) : Slot.Fits address := by
  have hle := le_size_of_lookup h
  exact Slot.fits_iff.2 ⟨by omega, by omega⟩

end Assembly

end StackMachine
