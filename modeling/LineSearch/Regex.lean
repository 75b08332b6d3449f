import LineSearch.Match.Pieces
import LineSearch.Pattern.Anchors
import LineSearch.Pattern.Numbering

/-!
# Searching a line

* `Regex`: a pattern ready for use, with its anchors apart.
* `Regex.isMatch`: whether it matches somewhere in a line.
* `Regex.hits`: the match at every place of a line where one begins.

Every start has captures of its own. Of the matches that begin at a start only the first one
found counts: with `$` it is that one which has to end where the line does.
-/

namespace LineSearch

/-- A compiled pattern and its anchors. -/
structure Regex where
  program : Program
  startAnchored : Bool
  endAnchored : Bool
  deriving DecidableEq

namespace Regex

variable (r : Regex)

/-- The regex of a pattern. Every text is a pattern. -/
def ofPattern (pattern : String) : Regex :=
  let anchored := Anchored.ofPattern pattern.toList
  ⟨compile anchored.body 0, anchored.atStart, anchored.atEnd⟩

/-- The number of groups in the pattern. -/
def groupCount : Nat :=
  r.program.groupCount

/-- The first match found that begins at offset `start`, whatever the anchors say. -/
def matchAt (s : Subject) (start : Nat) : Outcome :=
  matchPieces s r.program.pieces start .empty

/-- Whether the match that begins at offset `start` ends where it has to. -/
def accepts (s : Subject) (start : Nat) : Bool :=
  match r.matchAt s start with
  | .matched stop _ => !r.endAnchored || stop == s.size
  | _ => false

/-- The offsets at which a match may begin. -/
def starts (s : Subject) : List Nat :=
  if r.startAnchored then [0] else s.starts

/-- Whether the pattern matches somewhere in a line. -/
def isMatch (line : String) : Bool :=
  let s := Subject.ofString line
  (r.starts s).any (r.accepts s)

/-- A match: the stretch of the line and the captures. -/
structure Hit where
  span : Span
  captures : Captures
  deriving DecidableEq, Repr

/-- The match at each offset of a line where one begins, whatever the anchors say. -/
def hits (s : Subject) : List Hit :=
  s.starts.filterMap fun start =>
    match r.matchAt s start with
    | .matched stop t => some ⟨⟨start, stop⟩, t⟩
    | _ => none

end Regex

/-- Whether a pattern matches somewhere in a line. -/
def isMatch (line pattern : String) : Bool :=
  (Regex.ofPattern pattern).isMatch line

end LineSearch
