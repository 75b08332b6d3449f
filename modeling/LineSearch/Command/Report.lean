import LineSearch.Command.Arguments
import LineSearch.Command.Input

/-!
# The command

* `Report`: the exit code of a run and what it writes.
* `report`: the run for some arguments and an input that is only read if the arguments are in
  order.
* `Ending`, `runCommand`: the run for the arguments as the system passes them, which panics at one
  that is no text.
-/

namespace LineSearch

/-- The exit code of a run and what it writes. -/
structure Report where
  exitCode : UInt32
  stdout : String
  stderr : String
  deriving DecidableEq, Repr

namespace Report

/-- A run that got as far as an answer is silent: its exit code says whether there was a match. -/
def ofAnswer (isMatch : Bool) : Report :=
  ⟨if isMatch then 0 else 1, "", ""⟩

/-- A run that failed says why, on one line. -/
def ofError (message : String) : Report :=
  ⟨1, "", message ++ "\n"⟩

/-- The answer to a search, or why there is none. -/
def ofSearch : Except InputError Bool → Report
  | .ok isMatch => ofAnswer isMatch
  | .error e => ofError e.message

end Report

/-- Runs the command with the arguments after its name. -/
def report {m : Type → Type} [Monad m] (arguments : List String) (stdin : m Input) : m Report :=
  match patternOfArguments arguments with
  | .error e => pure (.ofError e.message)
  | .ok pattern => do
    let input ← stdin
    pure (.ofSearch (search (.ofPattern pattern) input))

/-! ## The run of the program -/

/-- How a run of the program ends. -/
inductive Ending where
  | exited (report : Report)
  /-- Collecting the arguments panics at one that is no text. -/
  | panicked (argument : List UInt8)
  deriving DecidableEq, Repr

namespace Ending

/-- A panic has an exit code of its own. -/
def exitCode : Ending → UInt32
  | exited report => report.exitCode
  | panicked _ => 101

def stdout : Ending → String
  | exited report => report.stdout
  | panicked _ => ""

end Ending

/-- Runs the program with its arguments as bytes, its own name in front. All of them are collected
before the first one is looked at. -/
def runCommand {m : Type → Type} [Monad m] (arguments : List (List UInt8)) (stdin : m Input) :
    m Ending :=
  match collectArguments arguments with
  | .error argument => pure (.panicked argument)
  | .ok texts => do
    let report ← report (texts.drop 1) stdin
    pure (.exited report)

end LineSearch
