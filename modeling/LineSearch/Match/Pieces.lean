import LineSearch.Match.Outcome
import LineSearch.Pattern.Piece

/-!
# Matching pieces

A piece is matched at a byte offset, with the captures so far and with what has to match next.
It offers its ends in order of preference and takes the first one from which the rest of the match
succeeds. Of each alternative of a group it offers only the first way to match, whatever comes
after the group.

* `matchAtom`: the longest run first, then one character less at a time.
* `matchBackref`: the captured text once more.
* `repetitions`: how often a group with `+` can be repeated from an offset, each repetition from
  the captures that the group began with; `matchPiece_group_plus`: the last of them that the rest
  of the match can follow is taken.
* `matchPieces`: a sequence of pieces.
-/

namespace LineSearch

variable (s : Subject)

/-- The offsets where an atom at offset `p` may end, best first. -/
def Atom.stops (x : Atom) (q : Quantifier) (p : Nat) (ahead : List Char) : List Nat :=
  match q with
  | .one => Text.ends p ((ahead.take 1).takeWhile x.accepts)
  | .plus => (Text.ends p (ahead.takeWhile x.accepts)).reverse
  | .optional => Text.ends p ((ahead.take 1).takeWhile x.accepts) ++ [p]

/-- Matches an atom, and then what comes next. -/
def matchAtom (x : Atom) (q : Quantifier) (p : Nat) (t : Captures)
    (next : Nat → Captures → Outcome) : Outcome :=
  match s.ahead p with
  | none => .offBoundary
  | some ahead => tryEach (next · t) (x.stops q p ahead)

/-- Matches the text that a group captured, and then what comes next. Fails without a look at the
line if there is no such text. -/
def matchBackref (n p : Nat) (t : Captures) (next : Nat → Captures → Outcome) : Outcome :=
  match t.text? s n with
  | none => .failed
  | some text =>
    match s.ahead p with
    | none => .offBoundary
    | some ahead => if text.isPrefixOf ahead then next (p + Text.size text) t else .failed

/-- The ends of a group's repetitions from offset `p` on, with what each of them captured; `none`
if one of them looks from a bad offset. `step` gives one repetition. -/
def chain (step : Nat → Outcome) : Nat → Nat → Option (List (Nat × Captures))
  | 0, _ => some []
  | fuel + 1, p =>
    match step p with
    | .offBoundary => none
    | .failed => some []
    | .matched stop t => (chain step fuel stop).map ((stop, t) :: ·)

/-- Keeps a repetition only if it moves on from offset `p`. -/
def advance (p stop : Nat) (t : Captures) : Outcome :=
  if p < stop then .matched stop t else .failed

mutual
/-- Matches a sequence of pieces at offset `p`. -/
def matchPieces : List Piece → Nat → Captures → Outcome
  | [], p, t => .matched p t
  | piece :: pieces, p, t => matchPiece piece p t (matchPieces pieces)
termination_by structural pieces => pieces

/-- Matches a piece at offset `p`, and then what comes next. -/
def matchPiece : Piece → Nat → Captures → (Nat → Captures → Outcome) → Outcome
  | .atom x q, p, t, next => matchAtom s x q p t next
  | .backref n _, p, t, next => matchBackref s n p t next
  | .group number alternatives q, p, t, next =>
    let commit stop u := next stop (u.note number ⟨p, stop⟩)
    match q with
    | .one => matchAlternatives alternatives p t commit
    | .optional => (matchAlternatives alternatives p t commit).orElse fun _ => next p t
    | .plus =>
      match chain (fun p => matchAlternatives alternatives p t (advance p)) (s.size - p + 1) p with
      | none => .offBoundary
      | some reps => tryEach (fun (stop, u) => commit stop u) reps.reverse
termination_by structural piece => piece

/-- Matches the first alternative that does and after which what comes next does too. -/
def matchAlternatives :
    List (List Piece) → Nat → Captures → (Nat → Captures → Outcome) → Outcome
  | [], _, _, _ => .failed
  | pieces :: alternatives, p, t, next =>
    ((matchPieces pieces p t).andThen next).orElse fun _ =>
      matchAlternatives alternatives p t next
termination_by structural alternatives => alternatives
end

/-- The repetitions of a group with these alternatives from offset `p` on: each starts where the
one before it ended, from the captures `t`, and moves on. There are no more of them than bytes
ahead. -/
def repetitions (alternatives : List (List Piece)) (p : Nat) (t : Captures) :
    Option (List (Nat × Captures)) :=
  chain (fun p => matchAlternatives s alternatives p t (advance p)) (s.size - p + 1) p

theorem matchPiece_group_plus (number : Option GroupNumber) (alternatives : List (List Piece))
    (p : Nat) (t : Captures) (next : Nat → Captures → Outcome) :
    matchPiece s (.group number alternatives .plus) p t next =
      match repetitions s alternatives p t with
      | none => .offBoundary
      | some reps => tryEach (fun (stop, u) => next stop (u.note number ⟨p, stop⟩)) reps.reverse :=
  rfl

end LineSearch
