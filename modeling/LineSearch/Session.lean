import LineSearch.Match.Attempt
import LineSearch.Pattern.Numbering

/-!
# Sessions

A session runs programs one after another on captures that they share: what one of them captured,
the next one can refer back to, even in another line.

* `Session`: the captures, the programs and saved captures by name, and the group numbers in use.
* `Session.step`: one step and its answer; `Session.run`: a list of steps. A step that fails
  leaves the session as it was.
-/

namespace LineSearch

/-- The state of a session. -/
structure Session where
  captures : Captures
  /-- The group number that the next program starts from, unless the step says otherwise. -/
  taken : Nat
  /-- The highest group number that any program of the session had in use. -/
  highest : Nat
  programs : List (String × List Piece)
  saved : List (String × Captures)

/-- What can be done in a session. -/
inductive Session.Step where
  /-- Compiles a pattern under a name. -/
  | compile (name pattern : String) (taken : Option Nat)
  /-- Matches a program in a line, from a byte offset on. -/
  | find (program line : String) (start : Nat)
  /-- Reads what a group captured, as a line shows it. -/
  | get (group : Nat) (line : String)
  | clear
  | save (name : String)
  | load (name : String)
  /-- Compares the captures with saved ones. -/
  | same (name : String)
  /-- Compares two programs. -/
  | samePrograms (a b : String)
  deriving DecidableEq, Repr

/-- What a step answers. -/
inductive Session.Answer where
  | groupCount (count : Nat)
  | found (stop : Option Nat) (captures : List (Option Capture))
  | capture (capture : Option Capture)
  | done
  | equal (equal : Bool)
  deriving DecidableEq, Repr

/-- Why a step failed. -/
inductive Session.StepError where
  /-- A program had to look at the line from an offset that is no character boundary. -/
  | offBoundary
  | unknownName (name : String)
  deriving DecidableEq, Repr

namespace Session

/-- A new session. -/
def new : Session :=
  ⟨.empty, 0, 0, [], []⟩

/-- What stands under a name. -/
def named {α : Type} (name : String) (entries : List (String × α)) : Except StepError α :=
  match entries.lookup name with
  | some value => .ok value
  | none => .error (.unknownName name)

/-- One step: the session after it, and its answer. -/
def step (session : Session) : Step → Except StepError (Session × Answer)
  | .compile name pattern taken =>
    let program := LineSearch.compile pattern.toList (taken.getD session.taken)
    let session := { session with
      taken := program.groupCount
      highest := max session.highest program.groupCount
      programs := (name, program.pieces) :: session.programs }
    .ok (session, .groupCount program.groupCount)
  | .find name line start => do
    let pieces ← named name session.programs
    let s := Subject.ofString line
    match (attempt s pieces start).run session.captures with
    | .error _ => .error .offBoundary
    | .ok (stop, captures) =>
      .ok ({ session with captures }, .found stop (captures.report s session.highest))
  | .get group line => .ok (session, .capture (session.captures.get? (.ofString line) group))
  | .clear => .ok ({ session with captures := .empty }, .done)
  | .save name => .ok ({ session with saved := (name, session.captures) :: session.saved }, .done)
  | .load name => do
    let captures ← named name session.saved
    .ok ({ session with captures := captures }, .done)
  | .same name => do
    let captures ← named name session.saved
    .ok (session, .equal (session.captures = captures))
  | .samePrograms a b => do
    let pieces ← named a session.programs
    let others ← named b session.programs
    .ok (session, .equal (pieces = others))

/-- The answers to some steps. -/
def run (session : Session) : List Step → List (Except StepError Answer)
  | [] => []
  | step :: steps =>
    match session.step step with
    | .error e => .error e :: session.run steps
    | .ok (session, answer) => .ok answer :: session.run steps

end Session

end LineSearch
