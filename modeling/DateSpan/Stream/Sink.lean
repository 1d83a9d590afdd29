import DateSpan.Stream.Source

/-!
# Writing

A sink holds the bytes it was given. It may have room for so many bytes only: of
bytes that do not fit it takes as many as it can, and the rest are a fault. A fault
ends nothing; more may be put later, but what did not fit is lost.
-/

namespace DateSpan.Stream

structure Sink where
  /-- The number of bytes it has room for, if there is a limit. -/
  capacity : Option Nat
  flushFails : Bool
  held : Array UInt8
deriving DecidableEq, Repr

namespace Sink

def empty (capacity : Option Nat) (flushFails : Bool) : Sink := ⟨capacity, flushFails, #[]⟩

/-- How many of so many bytes the sink has room for. -/
def room (s : Sink) (count : Nat) : Nat :=
  match s.capacity with
  | none => count
  | some n => min count (n - s.held.size)

/-- Puts bytes into the sink: a fault if they did not fit, and the sink afterwards. -/
def put (bytes : List UInt8) (s : Sink) : Option Fault × Sink :=
  (if s.room bytes.length < bytes.length then some .sinkFull else none,
    { s with held := s.held ++ bytes.take (s.room bytes.length) })

/-- Puts bytes and then a line feed, unless the bytes were a fault already. -/
def putLine (bytes : List UInt8) (s : Sink) : Option Fault × Sink :=
  match s.put bytes with
  | (none, s) => s.put [lineFeed]
  | faulty => faulty

def flush (s : Sink) : Option Fault := if s.flushFails then some .flushBroken else none

end Sink

end DateSpan.Stream
