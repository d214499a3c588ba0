import UsageGrammar.CommandLine.Run

/-!
# The program

Standard input is read to its end, the command runs, and its report is printed.
-/

namespace UsageGrammar

def toByteArray (text : Bytes) : ByteArray := ⟨text.toArray⟩

/-- Reads a stream to its end. -/
partial def readAll (stream : IO.FS.Stream) (sofar : ByteArray) : IO ByteArray := do
  let chunk ← stream.read 65536
  if chunk.isEmpty then return sofar
  readAll stream (sofar ++ chunk)

end UsageGrammar

open UsageGrammar in
def main (arguments : List String) : IO UInt32 := do
  let input ← readAll (← IO.getStdin) .empty
  let stdout ← IO.getStdout
  let stderr ← IO.getStderr
  match CommandLine.run (arguments.map utf8) input.toList with
  | .error crash =>
    stderr.write (toByteArray (utf8 "panic: " ++ crash.message ++ utf8 "\n"))
    return 2
  | .ok report =>
    stdout.write (toByteArray report.output)
    stderr.write (toByteArray report.notes)
    match report.complaint with
    | none => return 0
    | some complaint =>
      stderr.write (toByteArray (complaint.message ++ utf8 "\n"))
      return 1
