-- SUMMARY: A program with a loop, a subroutine and labels in both directions prints the factorial of its argument, modulo 2 ^ 64.
import Mathlib.Data.Nat.Factorial.Basic
import StackMachine.Proofs.Contents
import StackMachine.Proofs.ExactArithmetic
import StackMachine.Proofs.ListedRuns

/-!
# The factorial program

The program pushes an argument, calls a subroutine that multiplies up to the factorial in a
loop, and prints what the subroutine leaves in `$A`. Its source is assembled by the contents
of its lines, and its run is followed on the list machine: `iterate` is one turn of the loop,
`loop` all of them, `subroutine` a call of the subroutine from any caller, and from there
the whole program.
-/

namespace StackMachine.Factorial

open scoped Nat
open ListMachine

/-! ## Source and code -/

/-- A line with an instruction and no label. -/
def instruction (op : Opcode) (arguments : List Argument) : Content :=
  ⟨[], some (op, arguments)⟩

/-- A line with a label and no instruction. -/
def label (name : String) : Content :=
  ⟨[name.toList], none⟩

/-- A line with neither. -/
def nothing : Content :=
  ⟨[], none⟩

def register (r : Fin 10) : Argument :=
  .operand (.register (.general r))

def integer (v : Int) : Argument :=
  .operand (.integer v)

def address (name : String) : Argument :=
  .reference name.toList

/-- The lines behind the one that pushes the argument, with their contents. -/
def listing : List (String × Content) := [
  ("        CALL %factorial", instruction .call [address "factorial"]),
  ("        POP", instruction .pop []),
  ("        PRINTR $A", instruction .printRegister [register 0]),
  ("        HALT 0", instruction .halt [.operand (.exitCode 0)]),
  ("", nothing),
  ("; factorial(n) -> $A", nothing),
  ("factorial:", label "factorial"),
  ("        PARAM $B 1          ; n", instruction .param [register 1, integer 1]),
  ("        SETI $A 1", instruction .setInt [register 0, integer 1]),
  ("        SETI $C 1", instruction .setInt [register 2, integer 1]),
  ("        SETI $D 0", instruction .setInt [register 3, integer 0]),
  ("loop:", label "loop"),
  ("        CMP $B $D", instruction .compare [register 1, register 3]),
  ("        JMPZEQ %done", instruction .jumpEqual [address "done"]),
  ("        PUSHREG $A", instruction .pushRegister [register 0]),
  ("        PUSHREG $B", instruction .pushRegister [register 1]),
  ("        MUL", instruction .mul []),
  ("        POPREG $A", instruction .popRegister [register 0]),
  ("        PUSHREG $B", instruction .pushRegister [register 1]),
  ("        PUSHREG $C", instruction .pushRegister [register 2]),
  ("        SUB", instruction .sub []),
  ("        POPREG $B", instruction .popRegister [register 1]),
  ("        JMP %loop", instruction .jump [address "loop"]),
  ("done:", label "done"),
  ("        RETURN", instruction .ret [])]

/-- The lines of the program for the argument `n`. -/
def lines (n : Nat) : List Text :=
  "; prints 5! computed by a helper function".toList ::
    ("        PUSHI ".toList ++ Decimal.ofNat n) :: listing.map (·.1.toList)

def source (n : Nat) : Text :=
  Text.ofLines (lines n)

/-- The instructions behind the one that pushes the argument. The subroutine begins at the
    offset 23 and its loop at 63. -/
def code : List Instruction := [
  .call 23,
  .pop,
  .printRegister (.general 0),
  .halt 0,
  .param (.general 1) 1,
  .setInt (.general 0) 1,
  .setInt (.general 2) 1,
  .setInt (.general 3) 0,
  .compare (.general 1) (.general 3),
  .jumpFlag .equal 98,
  .pushRegister (.general 0),
  .pushRegister (.general 1),
  .arithmetic .mul,
  .popRegister (.general 0),
  .pushRegister (.general 1),
  .pushRegister (.general 2),
  .arithmetic .sub,
  .popRegister (.general 1),
  .jump 63,
  .ret]

/-- The program for the argument `n`. -/
def program (n : Nat) : Bytes :=
  (Instruction.pushInt (.ofNat n) :: code).flatMap (·.encode)

/-! ## Assembling -/

variable {n : Nat}

theorem fits_argument (hn : n < 2 ^ 55) : Slot.Fits n :=
  Slot.fits_iff.2 ⟨by omega, by omega⟩

theorem pushing_eq :
    "        PUSHI ".toList = List.replicate 8 ' ' ++ (Opcode.pushInt.mnemonic ++ [' ']) := by
  decide +kernel

theorem isLine_lines (n : Nat) : ∀ t ∈ lines n, Text.IsLine t := by
  have hnumber : Text.IsLine ("        PUSHI ".toList ++ Decimal.ofNat n) :=
    Text.isLine_append_word (by decide +kernel) (Listing.word_ofNat n)
  have hlisting : ∀ t ∈ listing.map (·.1.toList), Text.IsLine t := by decide +kernel
  have hremark : Text.IsLine "; prints 5! computed by a helper function".toList := by
    decide +kernel
  rw [lines, List.forall_mem_cons, List.forall_mem_cons]
  exact ⟨hremark, hnumber, hlisting⟩

theorem mapM_lines (hn : n < 2 ^ 55) :
    (lines n).mapM Content.ofLine? =
      some (nothing :: instruction .pushInt [integer n] :: listing.map (·.2)) := by
  have hremark : Content.ofLine? "; prints 5! computed by a helper function".toList =
      some nothing := by
    decide +kernel
  have hnumber : Content.ofLine? ("        PUSHI ".toList ++ Decimal.ofNat n) =
      some (instruction .pushInt [integer n]) := by
    have hblank : Text.Blank (List.replicate 8 ' ') := by
      intro c hc
      rw [List.eq_of_mem_replicate hc]
      rfl
    rw [pushing_eq, List.append_assoc, List.append_assoc]
    exact Content.ofLine?_pushInt hblank (fits_argument hn)
  have hlisting : (listing.map (·.1.toList)).mapM Content.ofLine? = some (listing.map (·.2)) := by
    decide +kernel
  rw [lines, List.mapM_cons, List.mapM_cons, hremark, hnumber, hlisting]
  rfl

set_option maxRecDepth 4000 in
/-- What is pushed is left open: the labels get the same addresses whatever it is. -/
theorem assembleFrom_listing (o : Operand) :
    Content.assembleFrom ⟨2, #[⟨2, 0, .pushInt, [.operand o]⟩], 9, []⟩ (listing.map (·.2)) =
      .ok ((Opcode.pushInt.byte :: [o.encode].flatten) ++ code.flatMap (·.encode)) := by
  cbv

theorem assembleFrom_contents {o : Operand} (ho : o.encode.length = 8) :
    Content.assembleFrom .empty
        (nothing :: instruction .pushInt [.operand o] :: listing.map (·.2)) =
      .ok ((Opcode.pushInt.byte :: [o.encode].flatten) ++ code.flatMap (·.encode)) := by
  have hbytes : (Statement.mk 2 0 .pushInt [.operand o]).bytes.length = 9 := by
    simp [Statement.bytes, Argument.bytes, ho]
  have hfront : [nothing, instruction .pushInt [.operand o]].forM Content.feed .empty =
      .ok () ⟨2, #[⟨2, 0, .pushInt, [.operand o]⟩], 9, []⟩ := by
    change EStateM.Result.ok () (Assembly.mk 2 #[⟨2, 0, .pushInt, [.operand o]⟩]
      (0 + (Statement.mk 2 0 .pushInt [.operand o]).bytes.length) []) = _
    rw [hbytes]
  exact (Content.assembleFrom_append hfront).trans (assembleFrom_listing o)

theorem assemble_source (hn : n < 2 ^ 55) : assemble (source n) = .ok (program n) := by
  have hcontents : (Text.lines (source n)).mapM Content.ofLine? = _ :=
    (congrArg _ (Text.lines_ofLines (isLine_lines n))).trans (mapM_lines hn)
  rw [Content.assemble_eq hcontents, integer,
    assembleFrom_contents (o := .integer n) (Slot.length_encode n), program,
    List.flatMap_cons, Instruction.encode, Instruction.operands, Int64.toInt_ofNat_of_lt (by omega)]
  rfl

theorem coded_program (hn : n < 2 ^ 55) :
    Coded (program n) 0 (.pushInt (.ofNat n) :: code) := by
  have hfits : Slot.Fits (Int64.ofNat n).toInt := by
    rw [Int64.toInt_ofNat_of_lt (by omega)]
    exact fits_argument hn
  have hcode : ∀ i ∈ code, List.Forall₂ Operand.OfKind i.opcode.layout.kinds i.operands := by
    decide
  exact coded_of_isPrefix (List.forall_mem_cons.2 ⟨.cons (.integer hfits) .nil, hcode⟩)
    (List.prefix_refl _)

theorem coded_code (hn : n < 2 ^ 55) : Coded (program n) 9 code := by
  have h := (coded_program hn).2
  rwa [Nat.zero_add, Instruction.length_encode_pushInt] at h

theorem length_program (n : Nat) : (program n).length = 99 := by
  rw [program, List.flatMap_cons, List.length_append, Instruction.length_encode_pushInt]
  decide

/-! ## Inside the subroutine -/

/-- The general registers inside the subroutine: the product so far in `$A`, the factor that
    is next in `$B`, and one and zero in `$C` and `$D`. -/
def locals (general : Vector Value 10) (product factor : Int64) : Vector Value 10 :=
  (((general.set 1 (.int factor)).set 0 (.int product)).set 2 (.int 1)).set 3 (.int 0)

/-- A state inside the subroutine that the state `s` has called, with more values on the
    stack. -/
def inside (s : ListMachine) (pc product factor : Int64) (flag : Ordering)
    (above : List Int64) : ListMachine :=
  { s with
    stack := s.stack ++ above.map .int
    general := locals s.general product factor
    pc
    flag }

/-- The state can call the subroutine: the program is there, and the stack has room for the
    two operands of a multiplication. -/
structure Calls (s : ListMachine) : Prop where
  running : s.Running
  coded : Coded s.program 9 code
  length : s.program.length = 99
  room : s.stack.length + 2 ≤ s.capacity

section Registers

variable {general : Vector Value 10} {product factor : Int64}

theorem get_product : (locals general product factor).get 0 = .int product := by
  simp [locals, Vector.get_eq_getElem]

theorem get_factor : (locals general product factor).get 1 = .int factor := by
  simp [locals, Vector.get_eq_getElem]

theorem get_one : (locals general product factor).get 2 = .int 1 := by
  simp [locals, Vector.get_eq_getElem]

theorem get_zero : (locals general product factor).get 3 = .int 0 := by
  simp [locals, Vector.get_eq_getElem]

theorem set_product (v : Int64) :
    (locals general product factor).set 0 (.int v) = locals general v factor := by
  ext i hi
  simp only [locals, Vector.getElem_set]
  grind

theorem set_factor (v : Int64) :
    (locals general product factor).set 1 (.int v) = locals general product v := by
  ext i hi
  simp only [locals, Vector.getElem_set]
  grind

end Registers

section Steps

variable {s s' : ListMachine} {i : Instruction} {pc product factor v : Int64} {flag : Ordering}
  {above : List Int64}

theorem Calls.isAddress (h : Calls s) {target : Int64}
    (htarget : 0 ≤ target.toInt ∧ target.toInt < 99) : s.isAddress target = true := by
  simp [ListMachine.isAddress, h.length, htarget]

theorem Calls.reaches (h : Calls s)
    (hadvance : (inside s pc product factor flag above).advance i = s')
    (hi : Instruction.at? pc.toInt.toNat 9 code = some i) (hplain : i.isPlain = true) :
    (inside s pc product factor flag above).Reaches s' :=
  reaches_of_at? h.running h.coded hi hplain hadvance

theorem Calls.advance_push (h : Calls s) (habove : above.length < 2) {r : Fin 10}
    (hr : (locals s.general product factor).get r = .int v) :
    (inside s pc product factor flag above).advance (.pushRegister (.general r)) =
      inside s (pc + 2) product factor flag (above ++ [v]) := by
  have hroom : (inside s pc product factor flag above).stack.length < s.capacity := by
    have hcapacity := h.room
    simp only [inside, List.length_append, List.length_map]
    omega
  rw [advance_pushRegister hroom]
  simp [inside, hr]

theorem advance_popLocal {product' factor' : Int64} {r : Fin 10}
    (hr : (locals s.general product factor).set r (.int v) r.isLt =
      locals s.general product' factor') :
    (inside s pc product factor flag [v]).advance (.popRegister (.general r)) =
      inside s (pc + 2) product' factor' flag [] := by
  have hstack : (inside s pc product factor flag [v]).stack = s.stack ++ [.int v] := rfl
  rw [advance_popRegister hstack]
  simp [inside, hr]

theorem advance_compareFactor {order : Ordering} (h : Ord.compare factor.toInt 0 = order) :
    (inside s pc product factor flag []).advance (.compare (.general 1) (.general 3)) =
      inside s (pc + 3) product factor order [] := by
  rw [advance_compare get_factor get_zero, ← h]
  rfl

/-- One turn of the loop. -/
theorem iterate (h : Calls s) (hpos : 0 < factor.toInt) :
    (inside s 63 product factor flag []).Reaches
      (inside s 63 (product * factor) (factor - 1) .gt []) :=
  calc inside s 63 product factor flag []
    Reaches _ (inside s 66 product factor .gt []) :=
      h.reaches (advance_compareFactor (Int.compare_eq_gt.2 hpos)) rfl rfl
    Reaches _ (inside s 75 product factor .gt []) :=
      h.reaches (advance_jumpFlag_of_not_holds (c := .equal) rfl 98) rfl rfl
    Reaches _ (inside s 77 product factor .gt [product]) :=
      h.reaches (h.advance_push (by simp) get_product) rfl rfl
    Reaches _ (inside s 79 product factor .gt [product, factor]) :=
      h.reaches (h.advance_push (by simp) get_factor) rfl rfl
    Reaches _ (inside s 80 product factor .gt [product * factor]) :=
      h.reaches (advance_arithmetic .mul rfl rfl) rfl rfl
    Reaches _ (inside s 82 (product * factor) factor .gt []) :=
      h.reaches (advance_popLocal (set_product _)) rfl rfl
    Reaches _ (inside s 84 (product * factor) factor .gt [factor]) :=
      h.reaches (h.advance_push (by simp) get_factor) rfl rfl
    Reaches _ (inside s 86 (product * factor) factor .gt [factor, 1]) :=
      h.reaches (h.advance_push (by simp) get_one) rfl rfl
    Reaches _ (inside s 87 (product * factor) factor .gt [factor - 1]) :=
      h.reaches (advance_arithmetic .sub rfl rfl) rfl rfl
    Reaches _ (inside s 89 (product * factor) (factor - 1) .gt []) :=
      h.reaches (advance_popLocal (set_factor _)) rfl rfl
    Reaches _ (inside s 63 (product * factor) (factor - 1) .gt []) :=
      h.reaches (advance_jump (h.isAddress (by decide))) rfl rfl

/-- The loop ends when the next factor is zero. -/
theorem leave (h : Calls s) :
    (inside s 63 product 0 flag []).Reaches (inside s 98 product 0 .eq []) :=
  calc inside s 63 product 0 flag []
    Reaches _ (inside s 66 product 0 .eq []) := h.reaches (advance_compareFactor rfl) rfl rfl
    Reaches _ (inside s 98 product 0 .eq []) :=
      h.reaches (advance_jumpFlag_of_holds (c := .equal) rfl (h.isAddress (by decide))) rfl rfl

/-- From a factor `k` on, the loop multiplies the product by the factorial of `k`. The
    induction is on the number of turns that are left. -/
theorem loop (h : Calls s) {k : Nat} (hk : k < 2 ^ 63) :
    (inside s 63 product (.ofNat k) flag []).Reaches
      (inside s 98 (product * .ofNat k !) 0 .eq []) := by
  induction k generalizing product flag with
  | zero =>
    have hproduct : product * .ofNat 0 ! = product := Int64.mul_one product
    rw [hproduct]
    exact leave h
  | succ k ih =>
    have hpos : 0 < (Int64.ofNat (k + 1)).toInt := by
      rw [Int64.toInt_ofNat_of_lt hk]
      omega
    have hfactor : Int64.ofNat (k + 1) - 1 = .ofNat k := by
      rw [Int64.ofNat_add]
      exact Int64.add_sub_cancel _ _
    -- The factor that this turn takes out of the factorial goes into the product, modulo
    -- `2 ^ 64` on either side.
    have hproduct : product * .ofNat (k + 1) * .ofNat k ! = product * .ofNat (k + 1) ! := by
      rw [Int64.mul_assoc, ← Int64.ofNat_mul, Nat.factorial_succ]
    have hturn : (inside s 63 product (.ofNat (k + 1)) flag []).Reaches
        (inside s 63 (product * .ofNat (k + 1)) (.ofNat k) .gt []) := by
      rw [← hfactor]
      exact iterate h hpos
    rw [← hproduct]
    exact hturn.trans (ih (Nat.lt_of_succ_lt hk))

/-- The subroutine takes the argument into `$B` and sets the other registers. -/
theorem enter (h : Calls s) (hargument : s.element? (s.fp - 1) = some (.int factor)) :
    (s.goTo 23).Reaches (inside s 63 1 factor s.flag []) := by
  have hinside : inside s 63 1 factor s.flag [] =
      { s with pc := 63, general := locals s.general 1 factor } := by
    simp [inside]
  rw [hinside]
  calc s.goTo 23
    Reaches _ { s with pc := 33, general := s.general.set 1 (.int factor) } :=
      reaches_of_at? h.running h.coded rfl rfl (advance_param (s := s.goTo 23) hargument 1)
    Reaches _ { s with
        pc := 43
        general := (s.general.set 1 (.int factor)).set 0 (.int 1) } :=
      reaches_of_at? h.running h.coded rfl rfl (advance_setInt 0 1)
    Reaches _ { s with
        pc := 53
        general := ((s.general.set 1 (.int factor)).set 0 (.int 1)).set 2 (.int 1) } :=
      reaches_of_at? h.running h.coded rfl rfl (advance_setInt 2 1)
    Reaches _ { s with pc := 63, general := locals s.general 1 factor } :=
      reaches_of_at? h.running h.coded rfl rfl (advance_setInt 3 0)

/-- The subroutine returns with the factorial of its argument in `$A`. The stack is as it
    was. -/
theorem subroutine (h : Calls s) {k : Nat} (hk : k < 2 ^ 63)
    (hargument : s.element? (s.fp - 1) = some (.int (.ofNat k)))
    (hreturn : s.isAddress s.rt = true) :
    (s.goTo 23).Reaches
      { s with pc := s.rt, flag := .eq, general := locals s.general (.ofNat k !) 0 } := by
  have hloop : (inside s 63 1 (.ofNat k) s.flag []).Reaches
      (inside s 98 (.ofNat k !) 0 .eq []) := by
    rw [← Int64.one_mul (.ofNat k !)]
    exact loop h hk
  have hresult : (inside s 98 (.ofNat k !) 0 .eq []).goTo s.rt =
      { s with pc := s.rt, flag := .eq, general := locals s.general (.ofNat k !) 0 } := by
    simp [inside, ListMachine.goTo]
  rw [← hresult]
  calc s.goTo 23
    Reaches _ (inside s 63 1 (.ofNat k) s.flag []) := enter h hargument
    Reaches _ (inside s 98 (.ofNat k !) 0 .eq []) := hloop
    Reaches _ ((inside s 98 (.ofNat k !) 0 .eq []).goTo s.rt) :=
      h.reaches (advance_ret hreturn) rfl rfl

end Steps

/-! ## The whole program -/

section Runs

variable {config : Config}

/-- The program as it calls the subroutine, with the argument on the stack. -/
def caller (n : Nat) (config : Config) : ListMachine :=
  { ListMachine.ofProgram (program n) config with
    stack := [.int (.ofNat n)]
    fp := 1
    rt := 18 }

/-- The program behind the call. -/
def returned (n : Nat) (config : Config) : ListMachine :=
  { caller n config with
    general := locals RegisterFile.fresh.general (.ofNat n !) 0
    pc := 18
    flag := .eq }

/-- The program in front of its `HALT`. -/
def printed (n : Nat) (config : Config) : ListMachine :=
  { returned n config with
    stack := []
    pc := 21
    output := (Sink.ofLimit config.outputLimit).write
      (Utf8.encode (Decimal.ofInt (Int64.ofNat n !).toInt ++ ['\n'])) }

theorem calls_caller (hn : n < 2 ^ 55) (hstack : 3 ≤ config.stackSize) :
    Calls (caller n config) where
  running := ⟨rfl, rfl, rfl⟩
  coded := coded_code hn
  length := length_program n
  room := hstack

theorem reaches_returned (hn : n < 2 ^ 55) (hstack : 3 ≤ config.stackSize) :
    (ListMachine.ofProgram (program n) config).Reaches (returned n config) := by
  let s := ListMachine.ofProgram (program n) config
  have hcalls := calls_caller hn hstack
  have hroom : s.stack.length < s.capacity := Nat.lt_of_lt_of_le (Nat.zero_lt_succ 2) hstack
  have hargument : (caller n config).element? ((caller n config).fp - 1) =
      some (.int (.ofNat n)) := by
    simp [element?, caller]
  have hreturn : (caller n config).isAddress 18 = true := hcalls.isAddress (by decide)
  calc s
    Reaches _ { s with pc := 9, stack := [.int (.ofNat n)] } :=
      reaches_of_at? ⟨rfl, rfl, rfl⟩ (coded_program hn) rfl rfl (advance_pushInt hroom _)
    Reaches _ ((caller n config).goTo 23) :=
      reaches_of_at? ⟨rfl, rfl, rfl⟩ (coded_code hn) rfl rfl
        (advance_call (hcalls.isAddress (by decide)))
    Reaches _ (returned n config) := subroutine hcalls (by omega) hargument hreturn

theorem reaches_printed (hn : n < 2 ^ 55) (hunlimited : config.outputLimit = none) :
    (returned n config).Reaches (printed n config) := by
  let popped : ListMachine := { returned n config with stack := [], pc := 19 }
  have hstack : (returned n config).stack = [] ++ [.int (.ofNat n)] := rfl
  have hfits (size : Nat) : popped.output.fits size = true := by
    change Sink.fits ⟨config.outputLimit, #[]⟩ size = true
    rw [hunlimited]
    rfl
  have hline : ((locals RegisterFile.fresh.general (.ofNat n !) 0).get 0).render =
      Decimal.ofInt (Int64.ofNat n !).toInt := by
    rw [get_product, Value.render]
  rw [printed, ← hline]
  calc returned n config
    Reaches _ popped :=
      reaches_of_at? ⟨rfl, rfl, rfl⟩ (coded_code hn) rfl rfl (advance_pop hstack)
    Reaches _ _ :=
      reaches_of_at? ⟨rfl, rfl, rfl⟩ (coded_code hn) rfl rfl (advance_printRegister hfits 0)

/-- The program for any argument prints one line, the decimal of the word that is congruent to
    the factorial, and halts with an empty stack. -/
theorem program_prints_factorial (n : Nat) (hn : n < 2 ^ 55) (level : Option Level) :
    assemble (source n) = .ok (program n) ∧
    ∃ (value : Int64) (m : Machine),
      value.toInt ≡ n ! [ZMOD 2 ^ 64] ∧
      (Machine.ofProgram (program n) { journal := level }).RunsTo (.ok 0 m) ∧
      m.stack? = some [] ∧ m.fault = none ∧ m.exitCode = some 0 ∧
      m.output.bytes = Utf8.encode (Decimal.ofInt value.toInt ++ ['\n']) := by
  let config : Config := { journal := level }
  have hsize : (program n).length < 2 ^ 63 := by
    rw [length_program]
    decide
  have hcap : config.stackSize < 2 ^ 63 := (by decide : 16384 < 2 ^ 63)
  have hstack : 3 ≤ config.stackSize := (by decide : 3 ≤ 16384)
  have hreaches := (reaches_returned hn hstack).trans (reaches_printed hn rfl)
  rw [← Machine.listed_ofProgram] at hreaches
  obtain ⟨m, hruns, hmatches⟩ :=
    (Machine.Reachable.fresh.bounded hsize hcap).runsTo_of_reaches hsize hcap hreaches
      ⟨rfl, rfl, rfl⟩ ((coded_code hn).of_at? rfl)
  have hvalue : (Int64.ofNat n !).toInt ≡ n ! [ZMOD 2 ^ 64] :=
    Word.eq_ofInt_iff.1 (Int64.ofInt_eq_ofNat ..).symm
  refine ⟨assemble_source hn, .ofNat n !, m, hvalue, hruns, hmatches.stack, hmatches.fault,
    hmatches.exitCode, ?_⟩
  rw [hmatches.output]
  exact Sink.bytes_write_of_unlimited rfl _

theorem program_prints_factorial_of_twenty_one :
    21 < 2 ^ 55 ∧ assemble (source 21) = .ok (program 21) ∧
    ∃ m : Machine,
      (Machine.ofProgram (program 21) {}).RunsTo (.ok 0 m) ∧
      m.stack? = some [] ∧ m.fault = none ∧ m.exitCode = some 0 ∧
      m.output.bytes = Utf8.encode "-4249290049419214848\n".toList := by
  obtain ⟨hassemble, value, m, hvalue, hruns, hstack, hfault, hexit, houtput⟩ :=
    program_prints_factorial 21 (by decide) none
  have hword : value = .ofInt (21 ! : Nat) := Word.eq_ofInt_iff.2 hvalue
  rw [hword] at houtput
  exact ⟨by decide, hassemble, m, hruns, hstack, hfault, hexit, houtput.trans (by decide +kernel)⟩

end Runs

end StackMachine.Factorial
