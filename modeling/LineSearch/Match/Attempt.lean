import LineSearch.Match.Pieces

/-!
# Attempts on captures in place

A program is run on captures that it changes in place. Each branch of the search works on a copy of
them, and only the copy of a branch after which everything else matches takes their place.

* `Attempt`: a step of the search, with the captures that it finds and those that it leaves.
* `branch`: an attempt on a copy of the captures; `commitBranch`: what comes after a group, on the
  copy that its alternative left.
* `collect`: the repetitions of a group, each with the copy that it left.
* `attempt`: a sequence of pieces.
-/

namespace LineSearch

/-- A piece had to look ahead from an offset that is no character boundary. -/
structure OffBoundary where
  deriving DecidableEq, Repr

/-- A step of the search, with the captures that it finds and those that it leaves. -/
abbrev Attempt := StateT Captures (Except OffBoundary)

variable (s : Subject)

/-- What is ahead of an offset. -/
def lookAhead (p : Nat) : Attempt (List Char) :=
  match s.ahead p with
  | none => throw ⟨⟩
  | some ahead => return ahead

section Branch

variable {α : Type}

/-- Makes an attempt on captures of its own, and gives what it leaves of them. -/
def onCopy (copy : Captures) (a : Attempt α) : Attempt (α × Captures) :=
  StateT.lift (a.run copy)

/-- Makes an attempt on a copy of the captures. If it finds a match, `accept` decides what becomes
of its end and of the copy. -/
def branch (accept : Nat → Captures → Attempt (Option α)) (a : Attempt (Option Nat)) :
    Attempt (Option α) := do
  match ← onCopy (← get) a with
  | (none, _) => return none
  | (some stop, copy) => accept stop copy

end Branch

/-- Notes the span of a group in the copy that its alternative left, and goes on with the copy. It
takes the place of the captures only if what comes next matches. -/
def commitBranch (number : Option GroupNumber) (start : Nat) (next : Nat → Attempt (Option Nat))
    (stop : Nat) (copy : Captures) : Attempt (Option Nat) := do
  match ← onCopy (copy.note number ⟨start, stop⟩) (next stop) with
  | (none, _) => return none
  | (some result, copy) =>
    set copy
    return some result

/-- Keeps a repetition and the copy that it left only if it moves on from offset `p`. -/
def moveOn (p stop : Nat) (copy : Captures) : Attempt (Option (Nat × Captures)) :=
  return if p < stop then some (stop, copy) else none

/-- The repetitions of a group from offset `p` on, each with the copy that it left. `repetition`
gives the one at an offset. -/
def collect (repetition : Nat → Attempt (Option (Nat × Captures))) :
    Nat → Nat → Attempt (List (Nat × Captures))
  | 0, _ => return []
  | fuel + 1, p => do
    match ← repetition p with
    | none => return []
    | some (stop, copy) => return (stop, copy) :: (← collect repetition fuel stop)

mutual
/-- Matches a sequence of pieces at offset `p` and gives the offset where it ends. -/
def attempt : List Piece → Nat → Attempt (Option Nat)
  | [], p => return some p
  | piece :: pieces, p => attemptPiece piece p (attempt pieces)
termination_by structural pieces => pieces

/-- Matches a piece at offset `p`, and then what comes next. -/
def attemptPiece : Piece → Nat → (Nat → Attempt (Option Nat)) → Attempt (Option Nat)
  | .atom x q, p, next => do
    let ahead ← lookAhead s p
    (x.stops q p ahead).findSomeM? next
  | .backref n _, p, next => do
    match (← get).text? s n with
    | none => return none
    | some text =>
      let ahead ← lookAhead s p
      if text.isPrefixOf ahead then next (p + Text.size text) else return none
  | .group number alternatives q, p, next =>
    match q with
    | .one => (attemptAlternatives alternatives p).findSomeM? (branch (commitBranch number p next))
    | .optional => do
      let once := branch (commitBranch number p next)
      match ← (attemptAlternatives alternatives p).findSomeM? once with
      | some stop => return some stop
      | none => next p
    | .plus => do
      let repetition p := (attemptAlternatives alternatives p).findSomeM? (branch (moveOn p))
      let repetitions ← collect repetition (s.size - p + 1) p
      repetitions.reverse.findSomeM? fun (stop, copy) => commitBranch number p next stop copy
termination_by structural piece => piece

/-- The attempts to match the alternatives of a group at offset `p`. -/
def attemptAlternatives : List (List Piece) → Nat → List (Attempt (Option Nat))
  | [], _ => []
  | pieces :: alternatives, p => attempt pieces p :: attemptAlternatives alternatives p
termination_by structural alternatives => alternatives
end

end LineSearch
