import LineSearch.Pattern.Atom

/-!
# Pieces

A pattern is a sequence of pieces. A piece is an atom, a reference back to what a group captured,
or a group of alternatives, each of them a sequence of pieces again; each carries a quantifier.

* `GroupNumber`: the number of a group.
* `Piece`: one piece.
* `Piece.decEq`: equality of pieces is decidable, through the alternatives of groups.
-/

namespace LineSearch

/-- How often a piece may occur: once, once or more (`+`), or once or not at all (`?`). -/
inductive Quantifier where
  | one
  | plus
  | optional
  deriving DecidableEq, Repr

/-- The number of a group. The first group is group `1`. -/
@[ext]
structure GroupNumber where
  val : Nat
  pos : 0 < val
  deriving DecidableEq, Repr

namespace GroupNumber

instance : Coe GroupNumber Nat := ⟨val⟩

/-- The number that comes after so many numbers that are taken. -/
def next (taken : Nat) : GroupNumber :=
  ⟨taken + 1, taken.succ_pos⟩

instance {n : Nat} : OfNat GroupNumber (n + 1) := ⟨next n⟩

@[simp] theorem val_next (taken : Nat) : (next taken).val = taken + 1 := rfl

end GroupNumber

/-- One piece of a pattern. -/
inductive Piece where
  | atom (atom : Atom) (quantifier : Quantifier)
  /-- The text that a group captured, once whatever the quantifier says. -/
  | backref (group : Nat) (quantifier : Quantifier)
  /-- Alternatives in order of preference. `number` names the group in the captures; without one
  the group captures nothing. -/
  | group (number : Option GroupNumber) (alternatives : List (List Piece)) (quantifier : Quantifier)

namespace Piece

mutual
/-- Pieces are equal when their parts are. -/
def decEq : (a b : Piece) → Decidable (a = b)
  | .atom a q, .atom b r => decidable_of_iff (a = b ∧ q = r) (by simp)
  | .backref m q, .backref n r => decidable_of_iff (m = n ∧ q = r) (by simp)
  | .group m as q, .group n bs r =>
    match decEqAlternatives as bs with
    | .isTrue h => decidable_of_iff (m = n ∧ q = r) (by simp [h])
    | .isFalse h => .isFalse (by simp [h])
  | .atom .., .backref .. => .isFalse (by simp)
  | .atom .., .group .. => .isFalse (by simp)
  | .backref .., .atom .. => .isFalse (by simp)
  | .backref .., .group .. => .isFalse (by simp)
  | .group .., .atom .. => .isFalse (by simp)
  | .group .., .backref .. => .isFalse (by simp)

/-- Sequences of pieces are equal when they agree piece by piece. -/
def decEqPieces : (as bs : List Piece) → Decidable (as = bs)
  | [], [] => .isTrue rfl
  | [], _ :: _ => .isFalse (by simp)
  | _ :: _, [] => .isFalse (by simp)
  | a :: as, b :: bs =>
    match decEq a b with
    | .isFalse h => .isFalse (by simp [h])
    | .isTrue h =>
      match decEqPieces as bs with
      | .isTrue h' => .isTrue (by simp [h, h'])
      | .isFalse h' => .isFalse (by simp [h'])

/-- Groups' alternatives are equal when they agree one by one. -/
def decEqAlternatives : (as bs : List (List Piece)) → Decidable (as = bs)
  | [], [] => .isTrue rfl
  | [], _ :: _ => .isFalse (by simp)
  | _ :: _, [] => .isFalse (by simp)
  | a :: as, b :: bs =>
    match decEqPieces a b with
    | .isFalse h => .isFalse (by simp [h])
    | .isTrue h =>
      match decEqAlternatives as bs with
      | .isTrue h' => .isTrue (by simp [h, h'])
      | .isFalse h' => .isFalse (by simp [h'])
end

instance : DecidableEq Piece := decEq

/-- The quantifier that a piece carries. -/
def quantifier : Piece → Quantifier
  | .atom _ q => q
  | .backref _ q => q
  | .group _ _ q => q

end Piece

end LineSearch
