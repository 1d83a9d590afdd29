/-!
# Faults of streams

How reading bytes from a source or handing bytes to a sink can go wrong.
-/

namespace DateSpan.Stream

inductive Fault where
  /-- The source delivers no more bytes, although it has not come to its end. -/
  | sourceBroken
  /-- The sink has no room for all the bytes. -/
  | sinkFull
  /-- The sink does not pass on what it holds. -/
  | flushBroken
deriving DecidableEq, Repr

def Fault.message : Fault → String
  | .sourceBroken => "source broken"
  | .sinkFull => "sink full"
  | .flushBroken => "flush broken"

end DateSpan.Stream
