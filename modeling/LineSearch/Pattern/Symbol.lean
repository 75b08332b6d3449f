/-!
# Symbols of a pattern

A backslash and the character after it belong together wherever they stand in a pattern, inside
groups and bracket classes too. So reading a pattern starts by pairing them.

* `Symbol`: a plain or an escaped character.
* `symbols`: the symbols of a pattern; a backslash at the very end is a plain character.
* `text_symbols`: nothing is lost.
-/

namespace LineSearch

/-- A plain character, or a character after a backslash. -/
inductive Symbol where
  | plain (c : Char)
  | escaped (c : Char)
  deriving DecidableEq, Repr

namespace Symbol

/-- The character, without its backslash. -/
def char : Symbol → Char
  | plain c => c
  | escaped c => c

/-- The characters as they stand in the pattern. -/
def text : Symbol → List Char
  | plain c => [c]
  | escaped c => ['\\', c]

end Symbol

/-- The symbols of a pattern. -/
def symbols : List Char → List Symbol
  | '\\' :: c :: cs => .escaped c :: symbols cs
  | c :: cs => .plain c :: symbols cs
  | [] => []

/-- **Pairing loses nothing:** the texts of the symbols join to the pattern. -/
theorem text_symbols (cs : List Char) : (symbols cs).flatMap Symbol.text = cs := by
  fun_induction symbols cs with
  | case1 c cs ih => simp [Symbol.text, ih]
  | case2 c cs _ ih => simp [Symbol.text, ih]
  | case3 => rfl

end LineSearch
