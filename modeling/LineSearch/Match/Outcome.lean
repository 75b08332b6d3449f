import LineSearch.Match.Captures

/-!
# Outcomes of a match

* `Outcome`: where a match ended and what it captured, that there was none, or that a piece had to
  look at the line from inside a character or past its end.
* `Outcome.orElse` and `Outcome.andThen`: ordered choice and sequence. Looking from a bad offset
  ends both.
* `tryEach`: the first candidate with which the rest of a match succeeds.
-/

namespace LineSearch

/-- The outcome of matching some pieces. -/
inductive Outcome where
  /-- A piece had to look ahead from an offset that is no character boundary. -/
  | offBoundary
  | failed
  /-- The match ended at byte offset `stop`. -/
  | matched (stop : Nat) (captures : Captures)
  deriving DecidableEq, Repr

namespace Outcome

variable {o : Outcome} {stop : Nat} {t : Captures}

/-- What comes next if the first choice fails. -/
@[inline] def orElse (o : Outcome) (next : Unit → Outcome) : Outcome :=
  match o with
  | failed => next ()
  | o => o

/-- What comes next if the first part succeeds. -/
@[inline] def andThen (o : Outcome) (next : Nat → Captures → Outcome) : Outcome :=
  match o with
  | matched stop t => next stop t
  | o => o

@[simp] theorem offBoundary_orElse (next : Unit → Outcome) :
    offBoundary.orElse next = offBoundary := rfl

@[simp] theorem failed_orElse (next : Unit → Outcome) : failed.orElse next = next () := rfl

@[simp] theorem matched_orElse (next : Unit → Outcome) :
    (matched stop t).orElse next = matched stop t := rfl

@[simp] theorem offBoundary_andThen (next : Nat → Captures → Outcome) :
    offBoundary.andThen next = offBoundary := rfl

@[simp] theorem failed_andThen (next : Nat → Captures → Outcome) :
    failed.andThen next = failed := rfl

@[simp] theorem matched_andThen (next : Nat → Captures → Outcome) :
    (matched stop t).andThen next = next stop t := rfl

theorem orElse_eq_matched_iff {next : Unit → Outcome} :
    o.orElse next = matched stop t ↔
      o = matched stop t ∨ o = failed ∧ next () = matched stop t := by
  cases o <;> simp

theorem orElse_eq_failed_iff {next : Unit → Outcome} :
    o.orElse next = failed ↔ o = failed ∧ next () = failed := by
  cases o <;> simp

end Outcome

/-- The outcome of the first candidate that does not fail. -/
def tryEach {α : Type} (next : α → Outcome) : List α → Outcome
  | [] => .failed
  | a :: as => (next a).orElse fun _ => tryEach next as

@[simp] theorem tryEach_nil {α : Type} (next : α → Outcome) : tryEach next [] = .failed := rfl

@[simp] theorem tryEach_cons {α : Type} (next : α → Outcome) (a : α) (as : List α) :
    tryEach next (a :: as) = (next a).orElse fun _ => tryEach next as := rfl

theorem tryEach_map {α β : Type} (next : β → Outcome) (f : α → β) (as : List α) :
    tryEach next (as.map f) = tryEach (fun a => next (f a)) as := by
  induction as with
  | nil => rfl
  | cons a as ih => rw [List.map_cons, tryEach_cons, tryEach_cons, ih]

end LineSearch
