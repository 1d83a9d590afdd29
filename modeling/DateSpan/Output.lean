import DateSpan.Entry
import DateSpan.Stream.Sink

/-!
# Output

Entries are put into a sink one line each. An error on one entry does not keep a
later one from being tried.
-/

namespace DateSpan

structure Output where
  encoding : Encoding
  verbose : Bool
  sink : Stream.Sink

namespace Output

def failure? (fault : Option Stream.Fault) : Option Error :=
  fault.map fun f => .other (.writer f)

/-- Puts an entry out: the error, if there was one, and the output afterwards. -/
def write (e : Entry) (o : Output) : Option Error × Output :=
  let (fault, sink) := o.sink.putLine (Utf8.encode (e.text o.encoding o.verbose))
  (failure? fault, { o with sink })

def flush (o : Output) : Option Error := failure? o.sink.flush

end Output

end DateSpan
