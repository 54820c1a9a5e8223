-- SUMMARY: What is shown of values, stacks and registers is the same only if they are.
import StackMachine.Proofs.ControlCharacters
import StackMachine.Proofs.ListingLines
import StackMachine.Proofs.StrictDecoding
import StackMachine.RegisterFile

/-!
# Dumps

Nothing that a machine shows of its values, of its stack or of its registers can be read
in two ways, whatever strings they hold. What stands for a character is known by how it
begins and where it ends, and so is a quoted text; a number ends where no digit follows.
So each text is told from what follows it, and the texts that follow one another in a
dump one after the other.
-/

namespace StackMachine

/-! ## Hexadecimal numbers -/

namespace Hex

theorem ne_of_mem_toDigits {n : Nat} {c : Char} (h : c ∈ Nat.toDigits 16 n) : c ≠ '\x7d' := by
  have hall : ∀ k : Fin 16, Nat.digitChar k ≠ '\x7d' := by decide
  obtain ⟨k, hk, rfl⟩ := exists_digitChar_of_mem_toDigits (by decide) h
  exact hall ⟨k, hk⟩

theorem digits_one (n : Nat) : digits 1 n = Nat.toDigits 16 n := by
  have hpos : 1 ≤ (Nat.toDigits 16 n).length := Nat.length_toDigits_pos
  simp [digits, List.leftpad, Nat.sub_eq_zero_of_le hpos]

end Hex

/-! ## Quoted texts -/

namespace Quoted

variable {c d : Char} {s t u v : Text}

/-- The character that is written behind a backslash, and what follows it. -/
def readEscaped? : Text → Option (Char × Text)
  | '0' :: t => some ('\x00', t)
  | 't' :: t => some ('\t', t)
  | 'n' :: t => some ('\n', t)
  | 'r' :: t => some ('\r', t)
  | '"' :: t => some ('"', t)
  | '\\' :: t => some ('\\', t)
  | 'u' :: '\x7b' :: t =>
    let digits := t.takeWhile (· ≠ '\x7d')
    some (Char.ofNat (Nat.ofDigits 16 (digits.reverse.map digitValue)),
      (t.dropWhile (· ≠ '\x7d')).drop 1)
  | _ => none

/-- The first character that is written in a text, and what follows it. -/
def readChar? : Text → Option (Char × Text)
  | '\\' :: t => readEscaped? t
  | c :: t => some (c, t)
  | [] => none

theorem readChar?_cons (h : c ≠ '\\') (t : Text) : readChar? (c :: t) = some (c, t) := by
  rw [readChar?]
  exact fun hc => h hc

theorem readChar?_codePoint (c : Char) (t : Text) :
    readChar? (codePoint c ++ t) = some (c, t) := by
  have hdigits : ∀ d ∈ Nat.toDigits 16 c.toNat, decide (d ≠ '\x7d') = true := fun d hd =>
    decide_eq_true (Hex.ne_of_mem_toDigits hd)
  have htext : codePoint c ++ t =
      '\\' :: 'u' :: '\x7b' :: (Nat.toDigits 16 c.toNat ++ '\x7d' :: t) := by
    simp [codePoint, Hex.digits_one]
  rw [htext, readChar?, readEscaped?, List.takeWhile_append_of_pos hdigits,
    List.dropWhile_append_of_pos hdigits]
  simp [-List.map_reverse, ofDigits_toDigits]

/-- The written form of a character is read as that character, whatever follows. -/
theorem readChar?_escape (c : Char) (t : Text) : readChar? (escape c ++ t) = some (c, t) := by
  unfold escape
  split
  · rfl
  · rfl
  · rfl
  · rfl
  · rfl
  · rfl
  · rename_i hslash
    split
    · exact readChar?_cons hslash t
    · exact readChar?_codePoint c t

theorem escape_append_inj (h : escape c ++ s = escape d ++ t) : c = d ∧ s = t := by
  have hread : some (c, s) = some (d, t) := by rw [← readChar?_escape, h, readChar?_escape]
  exact Prod.mk.inj (Option.some.inj hread)

/-- No written form of a character begins with a double quote. -/
theorem cons_ne_escape_append (c : Char) (s t : Text) : '"' :: s ≠ escape c ++ t := by
  intro h
  have hread : some ('"', s) = some (c, t) := by
    rw [← readChar?_escape c t, ← h]
    rfl
  cases hread
  cases h

/-- Where a quoted text ends, and what it is, does not depend on what follows it. -/
theorem encode_append_inj (h : encode s ++ u = encode t ++ v) : s = t ∧ u = v := by
  have hbody : s.flatMap escape ++ '"' :: u = t.flatMap escape ++ '"' :: v := by
    simpa [encode] using h
  clear h
  induction s generalizing t with
  | nil =>
    cases t with
    | nil => exact ⟨rfl, (List.cons.inj hbody).2⟩
    | cons d t =>
      rw [List.flatMap_cons, List.append_assoc] at hbody
      exact absurd hbody (cons_ne_escape_append d u _)
  | cons c s ih =>
    rw [List.flatMap_cons, List.append_assoc] at hbody
    cases t with
    | nil => exact absurd hbody.symm (cons_ne_escape_append c v _)
    | cons d t =>
      rw [List.flatMap_cons, List.append_assoc] at hbody
      obtain ⟨rfl, hrest⟩ := escape_append_inj hbody
      obtain ⟨rfl, rfl⟩ := ih hrest
      exact ⟨rfl, rfl⟩

end Quoted

/-! ## Numbers -/

namespace Decimal

variable {s t : Text}

/-- No digit comes first. -/
def EndsNumber (t : Text) : Prop :=
  ∀ c ∈ t.head?, c.isDigit = false

theorem takeWhile_ofNat_append (n : Nat) (h : EndsNumber t) :
    (ofNat n ++ t).takeWhile Char.isDigit = ofNat n := by
  have hrest : t.takeWhile Char.isDigit = [] := by
    cases t with
    | nil => rfl
    | cons c t => exact List.takeWhile_cons_of_neg (by simp [h c rfl])
  rw [List.takeWhile_append_of_pos fun c hc => isDigit_of_mem_ofNat hc, hrest, List.append_nil]

theorem ofNat_append_inj {n k : Nat} (hs : EndsNumber s) (ht : EndsNumber t)
    (h : ofNat n ++ s = ofNat k ++ t) : n = k ∧ s = t := by
  have hdigits : ofNat n = ofNat k := by
    rw [← takeWhile_ofNat_append n hs, h, takeWhile_ofNat_append k ht]
  have hnumber : some n = some k := by rw [← natural?_ofNat, hdigits, natural?_ofNat]
  rw [hdigits] at h
  exact ⟨Option.some.inj hnumber, List.append_cancel_left h⟩

/-- A natural number begins with a digit. -/
theorem cons_ne_ofNat_append {c : Char} (hc : c.isDigit = false) (n : Nat) (s t : Text) :
    c :: s ≠ ofNat n ++ t := by
  obtain ⟨d, rest, hdigits⟩ := List.exists_cons_of_ne_nil (ofNat_ne_nil n)
  have hmem : d ∈ ofNat n := hdigits ▸ List.mem_cons_self
  rw [hdigits, List.cons_append]
  intro h
  exact ne_of_mem_ofNat hmem hc (List.cons.inj h).1.symm

theorem cons_ne_ofInt_append {c : Char} (hc : c.isDigit = false) (hsign : c ≠ '-') (x : Int)
    (s t : Text) : c :: s ≠ ofInt x ++ t := by
  cases x with
  | ofNat n => exact cons_ne_ofNat_append hc n s t
  | negSucc n => exact fun h => hsign (List.cons.inj h).1

/-- Where a number ends, and which one it is, can be told if no digit follows it. -/
theorem ofInt_append_inj {x y : Int} (hs : EndsNumber s) (ht : EndsNumber t)
    (h : ofInt x ++ s = ofInt y ++ t) : x = y ∧ s = t := by
  have hsign : '-'.isDigit = false := rfl
  cases x with
  | ofNat n =>
    cases y with
    | ofNat k =>
      obtain ⟨rfl, rfl⟩ := ofNat_append_inj hs ht h
      exact ⟨rfl, rfl⟩
    | negSucc k => exact absurd h.symm (cons_ne_ofNat_append hsign n _ s)
  | negSucc n =>
    cases y with
    | ofNat k => exact absurd h (cons_ne_ofNat_append hsign k _ t)
    | negSucc k =>
      obtain ⟨hnumber, rfl⟩ := ofNat_append_inj hs ht (List.cons.inj h).2
      cases hnumber
      exact ⟨rfl, rfl⟩

end Decimal

/-! ## Values -/

namespace Value

open Decimal

variable {v w : Value} {s t : Text} {vs ws : List Value}

/-- A byte string is the bytes of a text. -/
def IsText : Value → Prop
  | .int _ => True
  | .bytes b => ∃ t, Utf8.decode? b = .ok t

theorem render_append_inj (hv : v.IsText) (hw : w.IsText) (hs : EndsNumber s)
    (ht : EndsNumber t) (h : v.render ++ s = w.render ++ t) : v = w ∧ s = t := by
  have hquote : '"'.isDigit = false := rfl
  cases v with
  | int i =>
    cases w with
    | int j =>
      obtain ⟨hint, rfl⟩ := ofInt_append_inj hs ht h
      obtain rfl := Int64.toInt_inj.1 hint
      exact ⟨rfl, rfl⟩
    | bytes b => exact absurd h.symm (cons_ne_ofInt_append hquote (by decide) i.toInt _ s)
  | bytes b =>
    cases w with
    | int j => exact absurd h (cons_ne_ofInt_append hquote (by decide) j.toInt _ t)
    | bytes b' =>
      obtain ⟨⟨text, hb⟩, ⟨text', hb'⟩⟩ := And.intro hv hw
      obtain ⟨htext, rfl⟩ := Quoted.encode_append_inj h
      rw [Utf8.decodeLossy_of_decode? hb, Utf8.decodeLossy_of_decode? hb'] at htext
      subst htext
      rw [Utf8.decode?_eq_ok_iff.1 hb, Utf8.decode?_eq_ok_iff.1 hb']
      exact ⟨rfl, rfl⟩

/-- No value is shown like the end of a stack. -/
theorem cons_ne_render_append (v : Value) (s t : Text) : ']' :: s ≠ v.render ++ t := by
  cases v with
  | int i => exact cons_ne_ofInt_append rfl (by decide) i.toInt s t
  | bytes b => exact fun h => by cases h

/-! ## Stacks -/

/-- What is shown behind the topmost value of a stack. -/
def renderRest (vs : List Value) : Text :=
  vs.flatMap (fun v => ", ".toList ++ v.render) ++ [']']

theorem renderRest_cons (v : Value) (vs : List Value) :
    renderRest (v :: vs) = ", ".toList ++ (v.render ++ renderRest vs) := by
  simp [renderRest]

theorem endsNumber_renderRest (vs : List Value) : EndsNumber (renderRest vs) := by
  cases vs <;> exact fun c hc => by cases hc; rfl

theorem renderStack_concat (vs : List Value) (v : Value) :
    renderStack (vs ++ [v]) = '[' :: (v.render ++ renderRest vs.reverse) := by
  rw [renderStack, List.reverse_concat, List.map_cons, Text.intercalate_cons, List.append_assoc,
    List.flatMap_map]
  rfl

theorem renderRest_inj (hvs : ∀ v ∈ vs, v.IsText) (hws : ∀ w ∈ ws, w.IsText)
    (h : renderRest vs = renderRest ws) : vs = ws := by
  induction vs generalizing ws with
  | nil =>
    cases ws with
    | nil => rfl
    | cons w ws => cases h
  | cons v vs ih =>
    cases ws with
    | nil => cases h
    | cons w ws =>
      obtain ⟨hv, hvs'⟩ := List.forall_mem_cons.1 hvs
      obtain ⟨hw, hws'⟩ := List.forall_mem_cons.1 hws
      rw [renderRest_cons, renderRest_cons] at h
      obtain ⟨rfl, hrest⟩ := render_append_inj hv hw (endsNumber_renderRest vs)
        (endsNumber_renderRest ws) (List.append_cancel_left h)
      rw [ih hvs' hws' hrest]

theorem renderStack_inj (hvs : ∀ v ∈ vs, v.IsText) (hws : ∀ w ∈ ws, w.IsText)
    (h : renderStack vs = renderStack ws) : vs = ws := by
  obtain rfl | ⟨below, v, rfl⟩ := List.eq_nil_or_concat' vs
  · obtain rfl | ⟨below', w, rfl⟩ := List.eq_nil_or_concat' ws
    · rfl
    · rw [renderStack_concat] at h
      exact absurd (List.cons.inj h).2 (cons_ne_render_append w _ _)
  · rw [renderStack_concat] at h
    obtain rfl | ⟨below', w, rfl⟩ := List.eq_nil_or_concat' ws
    · exact absurd (List.cons.inj h).2.symm (cons_ne_render_append v _ _)
    · rw [renderStack_concat] at h
      obtain ⟨hbelow, hv⟩ := List.forall_mem_append.1 hvs
      obtain ⟨hbelow', hw⟩ := List.forall_mem_append.1 hws
      obtain ⟨rfl, hrest⟩ := render_append_inj (hv v List.mem_cons_self) (hw w List.mem_cons_self)
        (endsNumber_renderRest _) (endsNumber_renderRest _) (List.cons.inj h).2
      have hreverse := renderRest_inj (fun v hv => hbelow v (List.mem_reverse.1 hv))
        (fun w hw => hbelow' w (List.mem_reverse.1 hw)) hrest
      rw [List.reverse_inj.1 hreverse]

end Value

/-! ## Registers -/

theorem Register.mem_all (r : Register) : r ∈ all := by
  cases r <;> simp [all]

namespace RegisterFile

variable {file file' : RegisterFile}

/-- A register file is known by what its registers read as. -/
theorem eq_of_get (h : ∀ r, file.get r = file'.get r) : file = file' := by
  have hgeneral : file.general = file'.general := Vector.ext fun i hi => h (.general ⟨i, hi⟩)
  have hspecial : file.pc = file'.pc ∧ file.sp = file'.sp ∧ file.fp = file'.fp ∧
      file.rt = file'.rt :=
    ⟨Value.int.inj (h .pc), Value.int.inj (h .sp), Value.int.inj (h .fp), Value.int.inj (h .rt)⟩
  obtain ⟨hpc, hsp, hfp, hrt⟩ := hspecial
  cases file
  cases file'
  simp_all

/-- What is shown behind the first register. -/
def renderRest (file : RegisterFile) (rs : List Register) : Text :=
  rs.flatMap fun r => ' ' :: (r.name ++ '=' :: (file.get r).render)

theorem renderRest_cons (file : RegisterFile) (r : Register) (rs : List Register) :
    file.renderRest (r :: rs) =
      (' ' :: r.name ++ ['=']) ++ ((file.get r).render ++ file.renderRest rs) := by
  simp [renderRest]

theorem endsNumber_renderRest (file : RegisterFile) (rs : List Register) :
    Decimal.EndsNumber (file.renderRest rs) := by
  cases rs with
  | nil => exact nofun
  | cons r rs => exact fun c hc => by cases hc; rfl

theorem get_eq_of_renderRest {rs : List Register} (hf : ∀ r, (file.get r).IsText)
    (hf' : ∀ r, (file'.get r).IsText) (h : file.renderRest rs = file'.renderRest rs) :
    ∀ r ∈ rs, file.get r = file'.get r := by
  induction rs with
  | nil => exact nofun
  | cons r rs ih =>
    rw [renderRest_cons, renderRest_cons] at h
    obtain ⟨hr, hrest⟩ := Value.render_append_inj (hf r) (hf' r) (file.endsNumber_renderRest rs)
      (file'.endsNumber_renderRest rs) (List.append_cancel_left h)
    exact List.forall_mem_cons.2 ⟨hr, ih hrest⟩

theorem cons_render (file : RegisterFile) : ' ' :: file.render = file.renderRest Register.all := by
  obtain ⟨r, rs, hall⟩ : ∃ r rs, Register.all = r :: rs := ⟨_, _, rfl⟩
  rw [render, hall, List.map_cons, Text.intercalate_cons, List.flatMap_map]
  rfl

theorem render_inj (hf : ∀ r, (file.get r).IsText) (hf' : ∀ r, (file'.get r).IsText)
    (h : file.render = file'.render) : file = file' := by
  have hrest : file.renderRest Register.all = file'.renderRest Register.all := by
    rw [← cons_render, ← cons_render, h]
  exact eq_of_get fun r => get_eq_of_renderRest hf hf' hrest r r.mem_all

end RegisterFile

/-! ## Dumps -/

/-- Nothing that is shown can be read in two ways, whatever texts the byte strings are the
    bytes of. Values that are shown alike are equal. Stacks that are shown alike have the
    same values in the same order, and so have register files. -/
theorem dumps_are_unambiguous :
    (∀ v w : Value, v.IsText → w.IsText → v.render = w.render → v = w) ∧
    (∀ vs ws : List Value, (∀ v ∈ vs, v.IsText) → (∀ w ∈ ws, w.IsText) →
      Value.renderStack vs = Value.renderStack ws → vs = ws) ∧
    ∀ file file' : RegisterFile, (∀ r, (file.get r).IsText) → (∀ r, (file'.get r).IsText) →
      file.render = file'.render → file = file' := by
  refine ⟨fun v w hv hw h => ?_, fun vs ws => Value.renderStack_inj,
    fun file file' => RegisterFile.render_inj⟩
  have hends : Decimal.EndsNumber [] := nofun
  refine (Value.render_append_inj hv hw hends hends ?_).1
  rw [h]

/-- One string looks like two numbers, and one like a register. -/
theorem dumps_are_unambiguous_of_lookalikes :
    let numbers : Value := .bytes (Utf8.encode "1, 2".toList)
    let register : Value := .bytes (Utf8.encode " B=0".toList)
    let file : RegisterFile := { RegisterFile.fresh with general := .replicate 10 register }
    numbers = .bytes [0x31, 0x2C, 0x20, 0x32] ∧
      Value.renderStack [numbers] ≠ Value.renderStack [.int 2, .int 1] ∧
      file.render ≠ RegisterFile.fresh.render := by
  intro numbers register file
  have hencoded (t : Text) : (Value.bytes (Utf8.encode t)).IsText := ⟨t, Utf8.decode?_encode t⟩
  have hint (i : Int64) : (Value.int i).IsText := trivial
  obtain ⟨hvalues, hstacks, hfiles⟩ := dumps_are_unambiguous
  refine ⟨hvalues _ _ (hencoded _) ⟨"1, 2".toList, by decide +kernel⟩ (by decide +kernel), ?_, ?_⟩
  · intro h
    have hequal := hstacks _ _ (List.forall_mem_singleton.2 (hencoded _))
      (List.forall_mem_cons.2 ⟨hint 2, List.forall_mem_singleton.2 (hint 1)⟩) h
    exact absurd hequal (by decide)
  · intro h
    have hfile (r : Register) : (file.get r).IsText := by
      cases r with
      | general i => simpa [file, RegisterFile.get, Vector.get] using hencoded _
      | _ => trivial
    have hfresh (r : Register) : (RegisterFile.fresh.get r).IsText := by
      rw [RegisterFile.get_fresh]
      trivial
    exact absurd (hfiles _ _ hfile hfresh h) (by decide +kernel)

/-- Without the texts, strings that are no UTF-8 are shown alike. -/
example : (Value.bytes [0xFE]).render = (Value.bytes [0xFF]).render := by decide +kernel

end StackMachine
