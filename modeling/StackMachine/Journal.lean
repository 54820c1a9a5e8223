-- SUMMARY: The events that are worth a journal line, their levels and texts.
import StackMachine.Fault
import StackMachine.Machine.Snapshot

/-!
# The journal

Assembling, loading and running have events that a journal records. Each event
has a level and a text. A journal keeps the events of its own level and of the
more severe ones.
-/

namespace StackMachine

/-! ## Levels -/

/-- How much an event matters, the severest level first. -/
inductive Level where
  | error
  | info
  | debug
  deriving DecidableEq, Repr

namespace Level

def name : Level → Text
  | error => "ERROR".toList
  | info => "INFO".toList
  | debug => "DEBUG".toList

/-- Does a journal of the level `limit` keep events of this level? -/
def within (level limit : Level) : Bool :=
  level.ctorIdx ≤ limit.ctorIdx

end Level

/-! ## Events -/

inductive Event where
  /-- An instruction was assembled from a line, at an offset. -/
  | assembled (line : Nat) (op : Opcode) (offset : Nat)
  /-- The slot at an offset received the address of a label. -/
  | resolved (label : Text) (address offset : Nat)
  /-- A file is an image of so many program bytes. -/
  | imageFound (size : Nat)
  | programLoaded (program : Bytes)
  /-- An opcode was read; the program counter is behind it. -/
  | fetched (op : Opcode) (state : Snapshot)
  /-- The same while tracing is on, with the address of the opcode. -/
  | traced (address : Int64) (op : Opcode) (state : Snapshot)
  /-- A value went into a slot of the stack. -/
  | stored (slot : Nat) (v : Value)
  | tracingSet (on : Bool)
  | terminating
  | faulted (fault : Fault) (state : Snapshot)
  | malformed (malformation : Malformation) (state : Snapshot)
  | halted (code : UInt8)
  deriving DecidableEq, Repr

namespace Event

def level : Event → Level
  | faulted .. | malformed .. => .error
  | traced .. | tracingSet .. | terminating | halted .. => .info
  | assembled .. | resolved .. | imageFound .. | programLoaded .. | fetched .. | stored .. => .debug

def message : Event → Text
  | assembled line op offset =>
    "line ".toList ++ Decimal.ofNat line ++ ": ".toList ++ op.mnemonic ++ " at ".toList
      ++ Decimal.ofNat offset
  | resolved label address offset =>
    "patched ".toList ++ label ++ " -> ".toList ++ Decimal.ofNat address ++ " at ".toList
      ++ Decimal.ofNat offset
  | imageFound size => "precompiled image, ".toList ++ Decimal.ofNat size ++ " bytes".toList
  | programLoaded program => "program [".toList ++ Bytes.dump program ++ [']']
  | fetched op state => "fetch ".toList ++ op.mnemonic ++ ' ' :: state.render
  | traced address op state =>
    Hex.word address ++ ' ' :: op.mnemonic ++ ' ' :: state.render
  | stored slot v => "put slot=".toList ++ Decimal.ofNat slot ++ " value=".toList ++ v.render
  | tracingSet on => "tracing ".toList ++ if on then "on".toList else "off".toList
  | terminating => "Terminating...".toList
  | faulted fault state => fault.message ++ ' ' :: state.render
  | malformed malformation state => malformation.message ++ ' ' :: state.render
  | halted code => "halted with exit code ".toList ++ Decimal.ofNat code.toNat

end Event

/-! ## Journals -/

structure Journal where
  /-- The events that are kept; without a level, none. -/
  limit : Option Level
  /-- The events so far, the last one first. -/
  recent : List Event
  deriving DecidableEq, Repr

namespace Journal

def ofLimit (limit : Option Level) : Journal :=
  ⟨limit, []⟩

def keeps (j : Journal) (level : Level) : Bool :=
  match j.limit with
  | none => false
  | some limit => level.within limit

/-- Record an event, if the journal keeps events of its level. -/
def add (j : Journal) (e : Event) : Journal :=
  if j.keeps e.level then { j with recent := e :: j.recent } else j

/-- The events in the order in which they happened. -/
def events (j : Journal) : List Event :=
  j.recent.reverse

end Journal

end StackMachine
