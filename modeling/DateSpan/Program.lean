import DateSpan.CommandLine

/-!
# The program

The program reads lines from its input, puts entries out, and ends with an exit code.
It fails if the command line is wrong, if the run was ended by an error, or if a line
held no cell; in the last two cases it says so. Its output is that of the run: what a
command line is answered with is not in it.
-/

namespace DateSpan.Program

structure Result where
  output : List UInt8
  records : List Run.Record
  failure : Option String
  exitCode : Nat
deriving DecidableEq, Repr

/-- What is said about lines that held no cell. -/
def failedLines (s : Run.Summary) : String := s!"{s.failed} of {s.lines} lines failed"

def ofReport (r : Run.Report) : Result :=
  let failure :=
    match r.outcome with
    | .error e => some e.diagnostic
    | .ok s => if 0 < s.failed then some (Quoted.quote (failedLines s)) else none
  { output := r.output
    records := r.records
    failure
    exitCode := if failure.isSome then 1 else 0 }

/-- What a command line that starts no run amounts to. It ends well if a text was asked
for. -/
def ofFault (f : CommandLine.Fault) : Result where
  output := []
  records := []
  failure := none
  exitCode :=
    match f with
    | .helpAsked | .versionAsked => 0
    | .unknownArgument | .invalidValue | .repeatedOption => 1

/-- Runs the program on the arguments after its name and on its input. -/
def run (args : List String) (input : List UInt8) : Result :=
  match CommandLine.parse args with
  | .error f => ofFault f
  | .ok o => ofReport (DateSpan.run o ⟨input, false⟩ (.empty none false))

/-- The last line of a program that fails, for its error output. -/
def failureLine (message : String) : String := s!"Error: {message}"

end DateSpan.Program
