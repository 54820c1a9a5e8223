-- SUMMARY: Where output goes: the bytes taken so far, and a limit on them.
import StackMachine.Bytes

/-!
# Sinks

A sink takes bytes up to a limit in all, or without limit. A write beyond the
limit fails, after the sink has taken the bytes that still fit.
-/

namespace StackMachine

structure Sink where
  limit : Option Nat
  taken : Array UInt8
  deriving DecidableEq, Repr

namespace Sink

def ofLimit (limit : Option Nat) : Sink :=
  ⟨limit, #[]⟩

def bytes (sink : Sink) : Bytes :=
  sink.taken.toList

/-- Can the sink take `n` more bytes? -/
def fits (sink : Sink) (n : Nat) : Bool :=
  match sink.limit with
  | none => true
  | some limit => sink.taken.size + n ≤ limit

/-- Take the bytes, or those of them that still fit. -/
def write (sink : Sink) (bytes : Bytes) : Sink :=
  match sink.limit with
  | none => { sink with taken := sink.taken ++ bytes }
  | some limit => { sink with taken := sink.taken ++ bytes.take (limit - sink.taken.size) }

theorem bytes_write_of_unlimited {sink : Sink} (h : sink.limit = none) (bytes : Bytes) :
    (sink.write bytes).bytes = sink.bytes ++ bytes := by
  simp [write, Sink.bytes, h]

theorem bytes_write_of_limit {sink : Sink} {limit : Nat} (h : sink.limit = some limit)
    (bytes : Bytes) :
    (sink.write bytes).bytes = sink.bytes ++ bytes.take (limit - sink.bytes.length) := by
  simp [write, Sink.bytes, h]

/-- A write that fits is taken whole. -/
theorem bytes_write_of_fits {sink : Sink} {bytes : Bytes} (h : sink.fits bytes.length) :
    (sink.write bytes).bytes = sink.bytes ++ bytes := by
  cases hl : sink.limit with
  | none => exact bytes_write_of_unlimited hl bytes
  | some limit =>
    have hroom : sink.bytes.length + bytes.length ≤ limit := by
      simpa [fits, hl, Sink.bytes] using h
    rw [bytes_write_of_limit hl, List.take_of_length_le (by omega)]

end Sink

end StackMachine
