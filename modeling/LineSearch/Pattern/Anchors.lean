/-!
# Anchors

* `Anchored`: a pattern without its anchors, and which of them it had.
* `Anchored.ofPattern`: takes the anchors off a pattern.
* `Anchored.text_ofPattern`: they can be put back.
-/

namespace LineSearch

/-- A pattern apart from its anchors. -/
structure Anchored where
  body : List Char
  /-- The pattern began with `^`: a match starts where the line does. -/
  atStart : Bool
  /-- The pattern ended with `$`: a match ends where the line does. -/
  atEnd : Bool
  deriving DecidableEq, Repr

namespace Anchored

/-- Takes a final `$` off a pattern, even after a backslash. -/
def dropDollar (body : List Char) (atStart : Bool) : Anchored :=
  if body.getLast? = some '$' then ⟨body.dropLast, atStart, true⟩ else ⟨body, atStart, false⟩

/-- Takes one `^` off the front of a pattern and then one `$` off its end. -/
def ofPattern : List Char → Anchored
  | '^' :: body => dropDollar body true
  | body => dropDollar body false

/-- The pattern with its anchors. -/
def text (a : Anchored) : List Char :=
  (if a.atStart then ['^'] else []) ++ a.body ++ (if a.atEnd then ['$'] else [])

theorem text_dropDollar (body : List Char) (atStart : Bool) :
    (dropDollar body atStart).text = (if atStart then ['^'] else []) ++ body := by
  unfold dropDollar
  split
  · rename_i h
    obtain ⟨front, rfl⟩ := List.getLast?_eq_some_iff.1 h
    simp [text]
  · simp [text]

theorem text_ofPattern (pattern : List Char) : (ofPattern pattern).text = pattern := by
  unfold ofPattern
  split <;> simp [text_dropDollar]

end Anchored

end LineSearch
