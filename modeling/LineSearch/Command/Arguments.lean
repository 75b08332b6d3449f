import LineSearch.Text.Utf8

/-!
# Command-line arguments

* `collectArguments`: the arguments as text.
* `UsageError`: what is wrong with some arguments.
* `patternOfArguments`: the pattern that they give.
-/

namespace LineSearch

/-- The arguments as text, or the first one that is none. All of them have to be text, the
program's name and those without a meaning too. -/
def collectArguments : List (List UInt8) → Except (List UInt8) (List String)
  | [] => .ok []
  | argument :: arguments =>
    match Utf8.decode argument with
    | .error _ => .error argument
    | .ok cs => (collectArguments arguments).map (String.ofList cs :: ·)

/-- Why arguments give no pattern. -/
inductive UsageError where
  | missingMode
  | unexpectedMode (argument : String)
  | missingPattern
  deriving DecidableEq, Repr

def UsageError.message : UsageError → String
  | missingMode => "Expected first argument to be '-E'"
  | unexpectedMode argument => s!"Expected first argument to be '-E', got '{argument}'"
  | missingPattern => "Missing pattern after '-E'"

/-- The pattern in the arguments after the program's name: the one that follows `-E`. Further
arguments have no meaning. -/
def patternOfArguments : List String → Except UsageError String
  | [] => .error .missingMode
  | mode :: arguments =>
    if mode = "-E" then
      match arguments with
      | [] => .error .missingPattern
      | pattern :: _ => .ok pattern
    else .error (.unexpectedMode mode)

end LineSearch
