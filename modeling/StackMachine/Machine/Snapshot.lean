-- SUMMARY: What a journal line shows of a machine's state.
import StackMachine.Value

/-!
# Snapshots

A snapshot is the part of a machine's state that journal lines show: the
special registers, the flag and the live stack.
-/

namespace StackMachine

structure Snapshot where
  pc : Int64
  sp : Int64
  fp : Int64
  rt : Int64
  flag : Ordering
  /-- The live slots, bottom first. -/
  stack : List Value
  deriving DecidableEq, Repr

namespace Snapshot

def flagName : Ordering → Text
  | .lt => "Less".toList
  | .eq => "Equal".toList
  | .gt => "Greater".toList

/-- The text of a snapshot; addresses are hexadecimal. -/
def render (s : Snapshot) : Text :=
  "PC=".toList ++ Hex.word s.pc ++ " SP=".toList ++ Decimal.ofInt s.sp.toInt
    ++ " FP=".toList ++ Hex.word s.fp ++ " RT=".toList ++ Hex.word s.rt
    ++ " flag=".toList ++ flagName s.flag ++ " stack=".toList ++ Value.renderStack s.stack

end Snapshot

end StackMachine
