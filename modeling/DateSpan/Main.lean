import DateSpan.Program

/-!
# The executable

Reads all of the standard input, runs the program on it, and hands its output, its
records and its exit code over.
-/

namespace DateSpan

/-- Reads a stream to its end. -/
partial def readToEnd (input : IO.FS.Stream) (sofar : ByteArray) : IO ByteArray := do
  let chunk ← input.read 65536
  if chunk.isEmpty then return sofar else readToEnd input (sofar ++ chunk)

end DateSpan

def main (args : List String) : IO UInt32 := do
  let input ← DateSpan.readToEnd (← IO.getStdin) .empty
  let result := DateSpan.Program.run args input.toList
  let output ← IO.getStdout
  let errors ← IO.getStderr
  for r in result.records do
    errors.putStrLn s!"[{r.level.name}] {r.message}"
  output.write ⟨result.output.toArray⟩
  output.flush
  if let some message := result.failure then
    errors.putStrLn (DateSpan.Program.failureLine message)
  return UInt32.ofNat result.exitCode
