import LineSearch.Pattern.Parse

/-!
# Numbering groups

Groups are numbered in the order of their opening parentheses, so a group takes its number before
the groups inside it.

* `Piece.numberPieces`: numbers the groups of a sequence, given how many numbers are taken.
* `Piece.numberPieces_group`: a group takes the next number, then the groups inside it do, then
  those after it.
* `compile`: reads a pattern and numbers its groups.
-/

namespace LineSearch

namespace Piece

mutual
/-- A piece with its groups numbered from `taken + 1` on, and the last number in use. -/
def number (taken : Nat) : Piece → Piece × Nat
  | .atom x q => (.atom x q, taken)
  | .backref n q => (.backref n q, taken)
  | .group _ alternatives q =>
    let (alternatives, last) := numberAlternatives (taken + 1) alternatives
    (.group (some (.next taken)) alternatives q, last)

/-- Numbers the groups of a sequence of pieces from left to right. -/
def numberPieces (taken : Nat) : List Piece → List Piece × Nat
  | [] => ([], taken)
  | piece :: pieces =>
    let (piece, last) := number taken piece
    let (pieces, last) := numberPieces last pieces
    (piece :: pieces, last)

/-- Numbers the groups of alternatives from left to right. -/
def numberAlternatives (taken : Nat) : List (List Piece) → List (List Piece) × Nat
  | [] => ([], taken)
  | pieces :: alternatives =>
    let (pieces, last) := numberPieces taken pieces
    let (alternatives, last) := numberAlternatives last alternatives
    (pieces :: alternatives, last)
end

section

variable (taken n : Nat) (x : Atom) (q : Quantifier) (number : Option GroupNumber)
  (alternatives : List (List Piece)) (piece : Piece) (part rest : List Piece)

@[simp] theorem numberPieces_nil : numberPieces taken [] = ([], taken) := rfl

theorem numberPieces_cons :
    numberPieces taken (piece :: rest) =
      let first := piece.number taken
      (first.1 :: (numberPieces first.2 rest).1, (numberPieces first.2 rest).2) := rfl

@[simp] theorem numberPieces_atom :
    numberPieces taken (.atom x q :: rest) =
      (.atom x q :: (numberPieces taken rest).1, (numberPieces taken rest).2) := rfl

@[simp] theorem numberPieces_backref :
    numberPieces taken (.backref n q :: rest) =
      (.backref n q :: (numberPieces taken rest).1, (numberPieces taken rest).2) := rfl

theorem numberPieces_group :
    numberPieces taken (.group number alternatives q :: rest) =
      let inside := numberAlternatives (taken + 1) alternatives
      (.group (some (.next taken)) inside.1 q :: (numberPieces inside.2 rest).1,
        (numberPieces inside.2 rest).2) := rfl

@[simp] theorem numberAlternatives_nil : numberAlternatives taken [] = ([], taken) := rfl

theorem numberAlternatives_cons :
    numberAlternatives taken (part :: alternatives) =
      let first := numberPieces taken part
      (first.1 :: (numberAlternatives first.2 alternatives).1,
        (numberAlternatives first.2 alternatives).2) := rfl

end

end Piece

/-- A compiled pattern: its pieces and the last group number in use. -/
structure Program where
  pieces : List Piece
  groupCount : Nat
  deriving DecidableEq

/-- Compiles a pattern when `taken` group numbers are in use already. `^` and `$` have no meaning
of their own here. -/
def compile (pattern : List Char) (taken : Nat) : Program :=
  let (pieces, last) := Piece.numberPieces taken (parse (symbols pattern))
  ⟨pieces, last⟩

end LineSearch
