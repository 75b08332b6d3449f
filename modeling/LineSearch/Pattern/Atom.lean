import LineSearch.Pattern.CharSet

/-!
# Atoms

* `Atom`: what stands for one character of the line.
* `Atom.accepts`: the characters that it stands for.
-/

namespace LineSearch

/-- The classes written `\s`, `\d` and `\w`. -/
inductive NamedClass where
  | space
  | digit
  | word
  deriving DecidableEq, Repr

/-- Named classes hold ASCII characters only, and of the blank ones a space, a tab and a newline. -/
def NamedClass.accepts : NamedClass → Char → Bool
  | space, c => c == ' ' || c == '\t' || c == '\n'
  | digit, c => c.isDigit
  | word, c => c.isAlphanum || c == '_'

/-- What stands for one character. -/
inductive Atom where
  /-- A character that stands for itself. -/
  | literal (c : Char)
  /-- A character that stands for itself after a backslash. -/
  | escaped (c : Char)
  /-- `.`, which stands for any character, a newline included. -/
  | any
  | named (kind : NamedClass)
  | set (chars : CharSet)
  deriving DecidableEq

/-- Whether an atom stands for a character. -/
def Atom.accepts : Atom → Char → Bool
  | literal l, c => c == l
  | escaped l, c => c == l
  | any, _ => true
  | named kind, c => kind.accepts c
  | set chars, c => chars.accepts c

end LineSearch
