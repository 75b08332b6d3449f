import LineSearch.Command.Report

/-!
# The program

Reads standard input to its end, searches its first line for the pattern in the arguments, and
exits with `0` if there is a match.
-/

namespace LineSearch

/-- One read from a stream. -/
def readOnce (stream : IO.FS.Stream) : IO Read := do
  try
    match (← stream.read 65536).toList with
    | [] => return .ended
    | first :: more => return .chunk first more
  catch
    | .interrupted .. => return .interrupted
    | e => return .failed (toString e)

/-- Standard input, up to its end or to the first failure. -/
def readStdin : IO Input := do
  let stdin ← IO.getStdin
  IO.iterate Progress.start fun
    | .done input => return .inr input
    | progress => return .inl (progress.next (← readOnce stdin))

end LineSearch

/-- Writes the report of a run and exits with its code. The runtime passes the arguments without
the name of the program. -/
def main (arguments : List String) : IO UInt32 := do
  let bytes := ("line-search" :: arguments).map LineSearch.Utf8.encoding
  let ending ← LineSearch.runCommand bytes LineSearch.readStdin
  match ending with
  | .exited report =>
    (← IO.getStdout).putStr report.stdout
    (← IO.getStderr).putStr report.stderr
  | .panicked argument =>
    (← IO.getStderr).putStr s!"an argument is not valid UTF-8: {argument}\n"
  return ending.exitCode
