import DateSpan.LineForm
import DateSpan.Output
import DateSpan.Run.Record

/-!
# Runs

A run reads a source line by line, and puts an entry into a sink for each line that
holds a cell. A line that does not is counted and recorded, and the run goes on; a
fault of the source or of the sink ends it.

The lines are folded over a `Progress`, which `Run.step` takes one line further.
Once an error has ended the run, the lines after it change nothing.
-/

namespace DateSpan

structure Options where
  form : LineForm := .literal
  encoding : Encoding := .human
  verbose : Bool := false
deriving DecidableEq, Repr

namespace Run

/-- How many lines were read, and how many of them held no cell. -/
structure Summary where
  lines : Nat := 0
  failed : Nat := 0
deriving DecidableEq, Repr

structure Progress where
  summary : Summary
  records : Array Record
  output : Output
  error? : Option Error

def start (o : Options) (sink : Stream.Sink) : Progress where
  summary := {}
  records := #[]
  output := ⟨o.encoding, o.verbose, sink⟩
  error? := none

/-- A line that holds no cell is counted and recorded. -/
def refuse (line : List UInt8) (e : Error) (p : Progress) : Progress :=
  let number := p.summary.lines + 1
  { p with
    summary := ⟨number, p.summary.failed + 1⟩
    records := p.records.push (.refused number line e) }

/-- A cell is put out. When the run is verbose it is recorded first. -/
def accept (o : Options) (c : Cell) (p : Progress) : Progress :=
  let number := p.summary.lines + 1
  let (error?, output) := p.output.write ⟨number, c⟩
  { summary := { p.summary with lines := number }
    records := if o.verbose then p.records.push (.read number c) else p.records
    output
    error? }

/-- Takes a run one line further, unless it has ended. -/
def step (o : Options) (p : Progress) (line : List UInt8) : Progress :=
  match p.error? with
  | some _ => p
  | none =>
    match o.form.decode line with
    | .error e => refuse line e p
    | .ok c => accept o c p

/-- The outcome of a run that has no more lines: an error on the way comes first, then
one of the source, then one on flushing the output. -/
def outcome (ending : Option Stream.Fault) (p : Progress) : Except Error Summary :=
  match p.error?, ending, p.output.flush with
  | some e, _, _ => .error e
  | none, some fault, _ => .error (.other (.reader fault))
  | none, none, some e => .error e
  | none, none, none => .ok p.summary

structure Report where
  outcome : Except Error Summary
  records : List Record
  output : List UInt8

end Run

/-- Runs over all lines of a source. -/
def run (o : Options) (source : Stream.Source) (sink : Stream.Sink) : Run.Report :=
  let lines := (source.lines Stream.lineFeed).map Stream.Line.content
  let p := lines.foldl (Run.step o) (Run.start o sink)
  { outcome := Run.outcome source.ending p
    records := p.records.toList
    output := p.output.sink.held.toList }

end DateSpan
