-- SUMMARY: Reading at the program counter agrees with reading at a place of the program.
import StackMachine.Listing
import StackMachine.Machine.Fetch
import StackMachine.Proofs.Word

/-!
# Fetching and listing

A machine fetches an instruction byte by byte at its program counter, and each
opcode says by itself what to fetch. A listing takes whole stretches of bytes at
a place, and the opcode's layout says which. `Fetch.Agree` relates the outcomes:
equal values and the counter at the next place, or the same malformation.
-/

namespace StackMachine

/-- The place of the program that the address points to. -/
def Memory.placeAt (memory : Memory) (pc : Int64) : Place :=
  ⟨pc.toInt.toNat, memory.code.toList.drop pc.toInt.toNat⟩

/-- Does the address lie in the program or just behind it? -/
def Memory.InReach (memory : Memory) (pc : Int64) : Prop :=
  0 ≤ pc.toInt ∧ pc.toInt ≤ memory.code.size

/-- Where a reading leaves the program counter if it fails: at the end of a
    program that ended too early, else no lower than `low`. -/
def Malformation.LeavesAt (size low stop : Int) : Malformation → Prop
  | unexpectedEnd offset => offset = size ∧ stop = size
  | _ => low ≤ stop ∧ stop ≤ size

theorem Malformation.LeavesAt.of_le {size low low' stop : Int} {f : Malformation}
    (h : f.LeavesAt size low stop) (hle : low' ≤ low) : f.LeavesAt size low' stop := by
  cases f with
  | unexpectedEnd offset => exact h
  | unknownOpcode | unknownRegister | malformedInteger | malformedString =>
    exact ⟨Int.le_trans hle h.1, h.2⟩

theorem Malformation.LeavesAt.inReach {memory : Memory} {low : Int} {f : Malformation}
    {pc : Int64} (h : f.LeavesAt memory.code.size low pc.toInt) (hlow : 0 ≤ low) :
    memory.InReach pc := by
  cases f <;> simp only [LeavesAt] at h <;> exact ⟨by omega, by omega⟩

namespace Fetch

/-- The outcome of a reading at a place, and that of a reading at the program
    counter, whose value `R` relates to the former's. The counter ends up no
    lower than `low`, unless the program ended too early. -/
def Agree (memory : Memory) (low : Int) (R : β → α → Prop) :
    Except Malformation (β × Place) → EStateM.Result Malformation Int64 α → Prop
  | .ok (b, next), .ok a pc =>
    R b a ∧ low ≤ pc.toInt ∧ memory.InReach pc ∧ next = memory.placeAt pc
  | .error e, .error f pc => e = f ∧ f.LeavesAt memory.code.size low pc.toInt
  | _, _ => False

variable {memory : Memory} {pc : Int64}

theorem Agree.of_le {low low' : Int} {R : β → α → Prop}
    {x : Except Malformation (β × Place)} {r : EStateM.Result Malformation Int64 α}
    (h : Agree memory low R x r) (hle : low' ≤ low) : Agree memory low' R x r := by
  match x, r, h with
  | .ok (b, next), .ok a pc, ⟨hR, hpc, hreach, hnext⟩ =>
    exact ⟨hR, Int.le_trans hle hpc, hreach, hnext⟩
  | .error e, .error f pc, ⟨hef, hleaves⟩ => exact ⟨hef, hleaves.of_le hle⟩

theorem bind_apply (r : Fetch α) (g : α → Fetch γ) (memory : Memory) (pc : Int64) :
    (r >>= g) memory pc =
      match r memory pc with
      | .ok a pc => g a memory pc
      | .error f pc => .error f pc := by
  simp only [Bind.bind, ReaderT.bind, EStateM.bind]
  cases r memory pc <;> rfl

/-- Two readings that agree, each followed by readings that agree from wherever
    the first ones lead. -/
theorem Agree.bind {low : Int} {R : β → α → Prop} {S : δ → γ → Prop}
    {x : Except Malformation (β × Place)} {f : β × Place → Except Malformation (δ × Place)}
    {r : Fetch α} {g : α → Fetch γ} (h : Agree memory low R x (r memory pc))
    (hf : ∀ b a mid, R b a → memory.InReach mid → low ≤ mid.toInt →
      Agree memory low S (f (b, memory.placeAt mid)) (g a memory mid)) :
    Agree memory low S (x >>= f) ((r >>= g) memory pc) := by
  rw [bind_apply]
  match x, r memory pc, h with
  | .ok (b, next), .ok a mid, ⟨hR, hle, hreach, hnext⟩ =>
    subst hnext
    exact hf b a mid hR hreach hle
  | .error e, .error f mid, h => exact h

theorem map_seq_eq (f : α → β → γ) (r : Fetch α) (s : Fetch β) :
    f <$> r <*> s = r >>= fun a => s >>= fun b => pure (f a b) := by
  simp only [seq_eq_bind_map, map_eq_pure_bind, bind_assoc, pure_bind]

/-! ## Bytes -/

variable (hsize : memory.code.size < 2 ^ 63)
include hsize

/-- Only the end of the program stops the reading of a byte. -/
theorem agree_byte (h : memory.InReach pc) :
    Agree memory (pc.toInt + 1) Eq (memory.placeAt pc).byte? (byte memory pc) := by
  obtain ⟨hlow, hhigh⟩ := h
  have hcast : ((pc.toInt.toNat : Nat) : Int) = pc.toInt := Int.toNat_of_nonneg hlow
  unfold byte Memory.byte? Place.byte? Memory.placeAt
  rw [if_pos hlow]
  by_cases hend : pc.toInt.toNat < memory.code.size
  · have hnext : (pc + 1).toInt = pc.toInt + 1 := Word.toInt_add_one (by omega) hsize
    have hnat : (pc + 1).toInt.toNat = pc.toInt.toNat + 1 := by omega
    have hdrop : memory.code.toList.drop pc.toInt.toNat =
        memory.code[pc.toInt.toNat] :: memory.code.toList.drop (pc.toInt.toNat + 1) :=
      List.drop_eq_getElem_cons (by simpa using hend)
    rw [hdrop, Array.getElem?_eq_getElem hend]
    refine ⟨rfl, by omega, ⟨by omega, by omega⟩, ?_⟩
    rw [Memory.placeAt, hnat]
    rfl
  -- Behind the last byte both fail, and the counter stays where it is.
  · have hdrop : memory.code.toList.drop pc.toInt.toNat = [] :=
      List.drop_eq_nil_of_le (by simpa using hend)
    rw [hdrop, Array.getElem?_eq_none (by omega)]
    exact ⟨congrArg _ hcast, by omega, by omega⟩

theorem agree_bytes (n : Nat) (h : memory.InReach pc) :
    Agree memory pc.toInt (fun b b' => b = b' ∧ b.length = n)
      ((memory.placeAt pc).bytes? n) (bytes n memory pc) := by
  induction n generalizing pc with
  | zero => exact ⟨⟨rfl, rfl⟩, Int.le_refl _, h, by simp [Place.skip]⟩
  | succ n ih =>
    rw [Place.bytes?_succ]
    refine ((agree_byte hsize h).of_le (by omega)).bind fun b b' mid hb hmid hle => ?_
    refine ((ih hmid).of_le hle).bind fun rest rest' stop hrest hstop hle => ?_
    obtain ⟨rfl, hlen⟩ := hrest
    exact ⟨⟨by rw [hb], congrArg (· + 1) hlen⟩, hle, hstop, rfl⟩

/-! ## Opcodes and operands -/

omit hsize in
theorem cast_placeAt_offset (h : memory.InReach pc) :
    ((memory.placeAt pc).offset : Int) = pc.toInt :=
  Int.toNat_of_nonneg h.1

theorem agree_opcode (h : memory.InReach pc) :
    Agree memory (pc.toInt + 1) Eq (memory.placeAt pc).opcode? (opcode memory pc) := by
  refine (agree_byte hsize h).bind fun b b' mid hb hmid hle => ?_
  subst hb
  dsimp only
  rw [cast_placeAt_offset h]
  cases Opcode.ofByte? b with
  | some op => exact ⟨rfl, hle, hmid, rfl⟩
  | none => exact ⟨rfl, hle, hmid.2⟩

theorem agree_exitCode (h : memory.InReach pc) :
    Agree memory pc.toInt (fun o code => o = .exitCode code)
      (memory.placeAt pc).exitCode? (byte memory pc) := by
  rw [← bind_pure byte]
  refine ((agree_byte hsize h).of_le (by omega)).bind fun b b' mid hb hmid hle => ?_
  subst hb
  exact ⟨rfl, hle, hmid, rfl⟩

theorem agree_register (h : memory.InReach pc) :
    Agree memory pc.toInt (fun o r => o = .register r)
      (memory.placeAt pc).register? (register memory pc) := by
  refine ((agree_byte hsize h).of_le (by omega)).bind fun b b' mid hb hmid hle => ?_
  subst hb
  dsimp only
  rw [cast_placeAt_offset h]
  cases Register.ofByte? b with
  | some r => exact ⟨rfl, hle, hmid, rfl⟩
  | none => exact ⟨rfl, hle, hmid.2⟩

/-- The integers of slots are machine words. -/
theorem agree_integer (h : memory.InReach pc) :
    Agree memory pc.toInt (fun o i => o = .integer i.toInt)
      (memory.placeAt pc).integer? (integer memory pc) := by
  refine (agree_bytes hsize Slot.width h).bind fun slot slot' mid hslot hmid hle => ?_
  obtain ⟨rfl, hlen⟩ := hslot
  dsimp only
  rw [cast_placeAt_offset h, Slot.decode?]
  cases Slot.decodeWord? slot with
  | some v => exact ⟨rfl, hle, hmid, rfl⟩
  | none => exact ⟨rfl, hle, hmid.2⟩

theorem agree_string (h : memory.InReach pc) :
    Agree memory pc.toInt (fun o b => o = .string b)
      (memory.placeAt pc).string? (string memory pc) := by
  unfold Place.string?
  rw [Place.length?_eq, bind_assoc]
  refine ((agree_byte hsize h).of_le (by omega)).bind fun high high' mid hhigh hmid hle => ?_
  subst hhigh
  dsimp only
  rw [bind_assoc]
  refine ((agree_byte hsize hmid).of_le (by omega)).bind fun low low' mid' hlow hmid' hle' => ?_
  subst hlow
  rw [pure_bind]
  dsimp only
  rw [cast_placeAt_offset h]
  split
  · exact ⟨rfl, hle', hmid'.2⟩
  · rw [← bind_pure (bytes _)]
    refine ((agree_bytes hsize _ hmid').of_le hle').bind fun b b' stop hb hstop hle => ?_
    obtain ⟨rfl, -⟩ := hb
    exact ⟨rfl, hle, hstop, rfl⟩

/-! ## Instructions -/

/-- The listed operands and the fetched instruction of an opcode say the same. -/
def Decodes (op : Opcode) (operands : List Operand) (i : Instruction) : Prop :=
  i.opcode = op ∧ i.operands = operands

section Shapes

variable {op : Opcode} {R : Operand → α → Prop} {S : Operand → β → Prop} {r : Fetch α}
  {s : Fetch β} {kind kind' : OperandKind}

omit hsize in
theorem agree_noOperand {i : Instruction} (h : memory.InReach pc) (hi : Decodes op [] i) :
    Agree memory pc.toInt (Decodes op) ((memory.placeAt pc).operands? [])
      ((pure i : Fetch Instruction) memory pc) :=
  ⟨hi, Int.le_refl _, h, rfl⟩

omit hsize in
theorem agree_oneOperand {f : α → Instruction}
    (hr : Agree memory pc.toInt R ((memory.placeAt pc).operand? kind) (r memory pc))
    (hf : ∀ o a, R o a → Decodes op [o] (f a)) :
    Agree memory pc.toInt (Decodes op) ((memory.placeAt pc).operands? [kind])
      ((f <$> r) memory pc) := by
  rw [map_eq_pure_bind]
  refine hr.bind fun o a mid hR hmid hle => ?_
  exact ⟨hf o a hR, hle, hmid, rfl⟩

omit hsize in
theorem agree_twoOperands {f : α → β → Instruction}
    (hr : Agree memory pc.toInt R ((memory.placeAt pc).operand? kind) (r memory pc))
    (hs : ∀ mid, memory.InReach mid →
      Agree memory mid.toInt S ((memory.placeAt mid).operand? kind') (s memory mid))
    (hf : ∀ o a o' b, R o a → S o' b → Decodes op [o, o'] (f a b)) :
    Agree memory pc.toInt (Decodes op) ((memory.placeAt pc).operands? [kind, kind'])
      ((f <$> r <*> s) memory pc) := by
  rw [map_seq_eq]
  refine hr.bind fun o a mid hR hmid hle => ?_
  dsimp only
  change Agree _ _ _ (((memory.placeAt mid).operand? kind' >>= fun x =>
    pure ([x.1], x.2)) >>= fun y => pure (o :: y.1, y.2)) _
  rw [bind_assoc]
  refine ((hs mid hmid).of_le hle).bind fun o' b stop hS hstop hle => ?_
  exact ⟨hf o a o' b hR hS, hle, hstop, rfl⟩

end Shapes

/-- What an opcode fetches is what its layout lists. The cases are the layouts. -/
theorem agree_instruction (op : Opcode) (h : memory.InReach pc) :
    Agree memory pc.toInt (Decodes op) ((memory.placeAt pc).operands? op.layout.kinds)
      (instruction op memory pc) := by
  have hregister := agree_register hsize h
  have hinteger := fun mid (hmid : memory.InReach mid) => agree_integer hsize hmid
  have hstring := fun mid (hmid : memory.InReach mid) => agree_string hsize hmid
  cases op
  case halt =>
    refine agree_oneOperand (agree_exitCode hsize h) fun o code ho => ?_
    exact ⟨rfl, by rw [ho, Instruction.operands]⟩
  case pop | swap | dup | add | sub | mul | div | print | dump | dumpRegisters | ret | concat
      | step =>
    exact agree_noOperand h ⟨rfl, rfl⟩
  case pushRegister | popRegister | store | jumpRegister | printRegister =>
    refine agree_oneOperand hregister fun o r ho => ?_
    exact ⟨rfl, by rw [ho, Instruction.operands]⟩
  case pushInt | jump | jumpPositive | jumpNegative | jumpZero | jumpNonzero | call | jumpGreater
      | jumpLess | jumpEqual | jumpUnequal =>
    refine agree_oneOperand (hinteger pc h) fun o i ho => ?_
    exact ⟨rfl, by rw [ho, Instruction.operands]⟩
  case pushString =>
    refine agree_oneOperand (hstring pc h) fun o b ho => ?_
    exact ⟨rfl, by rw [ho, Instruction.operands]⟩
  case setInt | param =>
    refine agree_twoOperands hregister hinteger fun o r o' i ho ho' => ?_
    exact ⟨rfl, by rw [ho, ho', Instruction.operands]⟩
  case setString =>
    refine agree_twoOperands hregister hstring fun o r o' b ho ho' => ?_
    exact ⟨rfl, by rw [ho, ho', Instruction.operands]⟩
  case compare =>
    refine agree_twoOperands hregister (fun mid hmid => agree_register hsize hmid)
      fun o left o' right ho ho' => ?_
    exact ⟨rfl, by rw [ho, ho', Instruction.operands]⟩

/-- Fetch a whole instruction. -/
def decode : Fetch Instruction := do
  let op ← opcode
  instruction op

/-- The listed instruction and the fetched one say the same. -/
def Lists (pc : Int64) (e : Entry) (i : Instruction) : Prop :=
  (e.offset : Int) = pc.toInt ∧ e.opcode = i.opcode ∧ e.operands = i.operands

theorem agree_decode (h : memory.InReach pc) :
    Agree memory (pc.toInt + 1) (Lists pc) (Entry.read? (memory.placeAt pc))
      (decode memory pc) := by
  refine (agree_opcode hsize h).bind fun op op' mid hop hmid hle => ?_
  subst hop
  rw [← bind_pure (instruction op)]
  refine ((agree_instruction hsize op hmid).of_le hle).bind fun operands i stop hi hstop hle => ?_
  exact ⟨⟨cast_placeAt_offset h, hi.1.symm, hi.2.symm⟩, hle, hstop, rfl⟩

/-- Wherever the reading of an instruction stops, the program counter lies in the
    program or just behind it. -/
theorem inReach_of_decode_eq_ok {i : Instruction} {pc' : Int64} (h : memory.InReach pc)
    (hi : decode memory pc = .ok i pc') : memory.InReach pc' := by
  have hagree := agree_decode hsize h
  rw [hi] at hagree
  match Entry.read? (memory.placeAt pc), hagree with
  | .ok (e, next), ⟨_, _, hreach, _⟩ => exact hreach

theorem leavesAt_of_decode_eq_error {f : Malformation} {pc' : Int64} (h : memory.InReach pc)
    (hf : decode memory pc = .error f pc') :
    f.LeavesAt memory.code.size (pc.toInt + 1) pc'.toInt := by
  have hagree := agree_decode hsize h
  rw [hf] at hagree
  match Entry.read? (memory.placeAt pc), hagree with
  | .error e, ⟨_, hleaves⟩ => exact hleaves

end Fetch

/-! ## Properties of readings -/

namespace Fetch

/-- A property that the reading of a byte has, and that lasts when readings are put
    together and when they fail for anything but the end of the program. -/
structure Closed (P : ∀ {α : Type}, Fetch α → Prop) : Prop where
  pure : ∀ {α : Type} (a : α), P (Pure.pure a)
  throw : ∀ {α : Type} (f : Malformation), (∀ offset, f ≠ .unexpectedEnd offset) →
    P (throw f : Fetch α)
  get : P (get : Fetch Int64)
  bind : ∀ {α β : Type} {r : Fetch α} {g : α → Fetch β}, P r → (∀ a, P (g a)) → P (r >>= g)
  byte : P byte

namespace Closed

variable {P : ∀ {α : Type}, Fetch α → Prop} (h : Closed P)
include h

theorem map {r : Fetch α} (hr : P r) (f : α → β) : P (f <$> r) := by
  rw [map_eq_pure_bind]
  exact h.bind hr fun _ => h.pure _

theorem map_seq {r : Fetch α} {s : Fetch β} (hr : P r) (hs : P s) (f : α → β → γ) :
    P (f <$> r <*> s) := by
  rw [map_seq_eq]
  exact h.bind hr fun _ => h.bind hs fun _ => h.pure _

theorem bytes (n : Nat) : P (bytes n) := by
  induction n with
  | zero => exact h.pure []
  | succ n ih => exact h.bind h.byte fun _ => h.bind ih fun _ => h.pure _

theorem opcode : P opcode := by
  refine h.bind h.get fun offset => h.bind h.byte fun b => ?_
  cases Opcode.ofByte? b with
  | some op => exact h.pure op
  | none => exact h.throw _ nofun

theorem register : P register := by
  refine h.bind h.get fun offset => h.bind h.byte fun b => ?_
  cases Register.ofByte? b with
  | some r => exact h.pure r
  | none => exact h.throw _ nofun

theorem integer : P integer := by
  refine h.bind h.get fun offset => h.bind (h.bytes _) fun slot => ?_
  cases Slot.decodeWord? slot with
  | some v => exact h.pure v
  | none => exact h.throw _ nofun

theorem string : P string := by
  refine h.bind h.get fun offset => h.bind h.byte fun high => h.bind h.byte fun low => ?_
  dsimp only
  split
  · exact h.throw _ nofun
  · exact h.bytes _

/-- The cases are the layouts. -/
theorem instruction (op : Opcode) : P (instruction op) := by
  cases op
  case halt => exact h.map h.byte _
  case pop | swap | dup | add | sub | mul | div | print | dump | dumpRegisters | ret | concat
      | step =>
    exact h.pure _
  case pushRegister | popRegister | store | jumpRegister | printRegister =>
    exact h.map h.register _
  case pushInt | jump | jumpPositive | jumpNegative | jumpZero | jumpNonzero | call | jumpGreater
      | jumpLess | jumpEqual | jumpUnequal =>
    exact h.map h.integer _
  case pushString => exact h.map h.string _
  case setInt | param => exact h.map_seq h.register h.integer _
  case setString => exact h.map_seq h.register h.string _
  case compare => exact h.map_seq h.register h.register _

theorem decode : P decode :=
  h.bind h.opcode h.instruction

end Closed

end Fetch

end StackMachine
