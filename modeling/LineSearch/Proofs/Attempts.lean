import LineSearch.Match.Attempt
import LineSearch.Proofs.GroupTree

/-!
# Attempts come to what matching comes to

An attempt that finds no match leaves the captures as they were, so the next one starts from the
same captures, and the search on captures in place is the search that passes them on as values.

* `Atomic`: an attempt that finds no match leaves the captures as they were; `attempt_atomic`: so
  does the attempt to match any pieces.
* `Keeps`: a step that leaves the captures as they were in any case.
* `outcomeOf`: the outcome that the result of an attempt stands for, whatever captures it left.
* `attempt_outcome`: the attempt to match some pieces has the outcome of the match.
* `run_attempt`: the result of an attempt and the captures that it leaves, both from that outcome.
-/

namespace LineSearch

variable {α β : Type} {s : Subject} {pieces : List Piece} {alternatives : List (List Piece)}
  {number : Option GroupNumber} {p start stop : Nat} {t u copy : Captures}
  {next : Nat → Attempt (Option Nat)} {a : Attempt (Option Nat)} {as : List β}
  {f : β → Attempt (Option α)} {accept : Nat → Captures → Attempt (Option α)}

/-! ## What is left of the captures -/

/-- The attempt leaves the captures as they were if it finds no match. -/
def Atomic (a : Attempt (Option α)) : Prop :=
  ∀ t u, a.run t = .ok (none, u) → u = t

/-- The step leaves the captures as they were. -/
def Keeps (a : Attempt α) : Prop :=
  ∀ t r u, a.run t = .ok (r, u) → u = t

theorem run_bind_eq_ok_iff {a : Attempt α} {f : α → Attempt β} {r : β} :
    (a >>= f).run t = .ok (r, u) ↔ ∃ x v, a.run t = .ok (x, v) ∧ (f x).run v = .ok (r, u) := by
  rw [StateT.run_bind]
  cases a.run t with
  | error e => simp [bind, Except.bind]
  | ok x =>
    constructor
    · intro h
      exact ⟨x.1, x.2, rfl, h⟩
    · rintro ⟨_, _, ⟨⟩, h⟩
      exact h

theorem keeps_pure (r : α) : Keeps (pure r) := by
  intro t _ u h
  cases h
  rfl

theorem Keeps.bind {a : Attempt α} {f : α → Attempt β} (ha : Keeps a) (hf : ∀ r, Keeps (f r)) :
    Keeps (a >>= f) := by
  intro t r u h
  obtain ⟨x, v, hx, hr⟩ := run_bind_eq_ok_iff.1 h
  rw [hf x v r u hr, ha t x v hx]

theorem keeps_lookAhead (p : Nat) : Keeps (lookAhead s p) := by
  unfold lookAhead
  cases s.ahead p with
  | none => intro t r u h; cases h
  | some ahead => exact keeps_pure ahead

theorem keeps_onCopy (copy : Captures) (a : Attempt α) : Keeps (onCopy copy a) := by
  intro t r u h
  rw [onCopy, StateT.run_lift] at h
  cases ha : a.run copy with
  | error e => rw [ha] at h; cases h
  | ok x => rw [ha] at h; cases h; rfl

theorem keeps_get : Keeps (get : Attempt Captures) := by
  intro t r u h
  cases h
  rfl

theorem Keeps.atomic {a : Attempt (Option α)} (h : Keeps a) : Atomic a :=
  fun t u hu => h t none u hu

/-- What comes after a step that leaves the captures as they were decides. -/
theorem Keeps.bind_atomic {a : Attempt β} (ha : Keeps a) (hf : ∀ r, Atomic (f r)) :
    Atomic (a >>= f) := by
  intro t u h
  obtain ⟨x, v, hx, hr⟩ := run_bind_eq_ok_iff.1 h
  rw [hf x v u hr, ha t x v hx]

/-- **One attempt after another** is atomic if each of them is. -/
theorem atomic_findSomeM? (h : ∀ b ∈ as, Atomic (f b)) : Atomic (as.findSomeM? f) := by
  induction as with
  | nil => exact (keeps_pure none).atomic
  | cons b as ih =>
    intro t u hu
    rw [List.findSomeM?_cons] at hu
    obtain ⟨r, v, hr, hu⟩ := run_bind_eq_ok_iff.1 hu
    cases r with
    | some r => cases hu
    | none =>
      -- the attempt at `b` found nothing, so the later ones begin where it began
      have hv : v = t := h b List.mem_cons_self t v hr
      have hu' : u = v := ih (fun c hc => h c (List.mem_cons_of_mem _ hc)) v u hu
      rw [hu', hv]

theorem keeps_findSomeM? (h : ∀ b ∈ as, Keeps (f b)) : Keeps (as.findSomeM? f) := by
  induction as with
  | nil => exact keeps_pure none
  | cons b as ih =>
    rw [List.findSomeM?_cons]
    refine (h b List.mem_cons_self).bind fun r => ?_
    cases r with
    | some r => exact keeps_pure _
    | none => exact ih fun c hc => h c (List.mem_cons_of_mem _ hc)

theorem Atomic.branch (h : ∀ stop copy, Atomic (accept stop copy)) (a : Attempt (Option Nat)) :
    Atomic (branch accept a) := by
  refine keeps_get.bind_atomic fun copy => (keeps_onCopy copy a).bind_atomic fun r => ?_
  cases r with
  | mk stop copy =>
    cases stop with
    | none => exact (keeps_pure none).atomic
    | some stop => exact h stop copy

theorem Keeps.branch (h : ∀ stop copy, Keeps (accept stop copy)) (a : Attempt (Option Nat)) :
    Keeps (branch accept a) := by
  refine keeps_get.bind fun copy => (keeps_onCopy copy a).bind fun r => ?_
  cases r with
  | mk stop copy =>
    cases stop with
    | none => exact keeps_pure none
    | some stop => exact h stop copy

/-- **A branch takes the place of the captures only with a match,** whatever comes next leaves of
the copy that it works on. -/
theorem commitBranch_atomic : Atomic (commitBranch number start next stop copy) := by
  refine (keeps_onCopy _ _).bind_atomic fun r => ?_
  cases r with
  | mk result copy =>
    cases result with
    | none => exact (keeps_pure none).atomic
    | some result => intro t u h; cases h

theorem keeps_moveOn : Keeps (moveOn p stop copy) :=
  keeps_pure _

/-- One occurrence of a group, and what comes after it. -/
theorem atomic_once : Atomic ((attemptAlternatives s alternatives p).findSomeM?
    (branch (commitBranch number start next))) :=
  atomic_findSomeM? fun a _ => .branch (fun _ _ => commitBranch_atomic) a

/-- One repetition of a group, with nothing after it. -/
theorem keeps_repetition : Keeps ((attemptAlternatives s alternatives p).findSomeM?
    (branch (moveOn p))) :=
  keeps_findSomeM? fun a _ => .branch (fun _ _ => keeps_moveOn) a

theorem keeps_collect {repetition : Nat → Attempt (Option (Nat × Captures))}
    (h : ∀ p, Keeps (repetition p)) (fuel p : Nat) : Keeps (collect repetition fuel p) := by
  induction fuel generalizing p with
  | zero => exact keeps_pure []
  | succ fuel ih =>
    rw [collect]
    refine (h p).bind fun r => ?_
    cases r with
    | none => exact keeps_pure []
    | some r => exact (ih r.1).bind fun _ => keeps_pure _

/-- **An attempt that finds no match leaves the captures as they were,** whatever was tried in
between, from any offset. -/
theorem attempt_atomic (s : Subject) (pieces : List Piece) (p : Nat) :
    Atomic (attempt s pieces p) := by
  induction pieces using pieces_induction generalizing p with
  | nil => intro t u h; cases h
  | atom x q rest ih =>
    rw [attempt, attemptPiece]
    exact (keeps_lookAhead p).bind_atomic fun ahead => atomic_findSomeM? fun m _ => ih m
  | backref n q rest ih =>
    rw [attempt, attemptPiece]
    refine keeps_get.bind_atomic fun t => ?_
    cases t.text? s n with
    | none => exact (keeps_pure none).atomic
    | some text =>
      refine (keeps_lookAhead p).bind_atomic fun ahead => ?_
      split
      · exact ih _
      · exact (keeps_pure none).atomic
  | group number alternatives q rest iha ih =>
    cases q with
    | one =>
      rw [attempt, attemptPiece]
      exact atomic_once
    | optional =>
      intro t u h
      rw [attempt, attemptPiece] at h
      obtain ⟨r, v, hr, hu⟩ := run_bind_eq_ok_iff.1 h
      cases r with
      | some r => cases hu
      | none => rw [ih p v u hu, atomic_once t v hr]
    | plus =>
      rw [attempt, attemptPiece]
      refine (keeps_collect (fun k => keeps_repetition) _ p).bind_atomic fun reps => ?_
      exact atomic_findSomeM? fun rep _ => commitBranch_atomic

/-! ## What an attempt comes to -/

/-- The outcome that the result of an attempt stands for. `found` gives the end of a match and what
was captured in it, from what the attempt found and the captures that it left. -/
def outcomeOf (found : α → Captures → Nat × Captures) :
    Except OffBoundary (Option α × Captures) → Outcome
  | .error _ => .offBoundary
  | .ok (none, _) => .failed
  | .ok (some r, u) => .matched (found r u).1 (found r u).2

variable {found : α → Captures → Nat × Captures}

/-- **One attempt after another** has the outcome of the first that does not fail, as each of them
begins with the same captures. -/
theorem outcomeOf_findSomeM? {o : β → Outcome} (h : ∀ b ∈ as, Atomic (f b))
    (ho : ∀ b ∈ as, outcomeOf found ((f b).run t) = o b) :
    outcomeOf found ((as.findSomeM? f).run t) = tryEach o as := by
  induction as with
  | nil => rfl
  | cons b as ih =>
    have hb := h b List.mem_cons_self t
    have hlater := ih (fun c hc => h c (List.mem_cons_of_mem _ hc))
      fun c hc => ho c (List.mem_cons_of_mem _ hc)
    rw [List.findSomeM?_cons, StateT.run_bind, tryEach_cons, ← ho b List.mem_cons_self]
    cases hrun : (f b).run t with
    | error e => rfl
    | ok r =>
      obtain ⟨r, v⟩ := r
      cases r with
      | some r => rfl
      | none =>
        obtain rfl : v = t := hb v hrun
        exact hlater

theorem outcomeOf_branch (a : Attempt (Option Nat)) (t : Captures) :
    outcomeOf found ((branch accept a).run t) =
      (outcomeOf Prod.mk (a.run t)).andThen fun stop copy =>
        outcomeOf found ((accept stop copy).run t) := by
  unfold branch onCopy
  simp only [StateT.run_bind, StateT.run_get, pure_bind, StateT.run_lift]
  cases a.run t with
  | error e => rfl
  | ok r =>
    obtain ⟨r, v⟩ := r
    cases r with
    | none => rfl
    | some stop => rfl

/-- A branch comes to what comes after its group on the copy that it works on. -/
theorem outcomeOf_commitBranch (t : Captures) :
    outcomeOf Prod.mk ((commitBranch number start next stop copy).run t) =
      outcomeOf Prod.mk ((next stop).run (copy.note number ⟨start, stop⟩)) := by
  unfold commitBranch onCopy
  simp only [StateT.run_bind, StateT.run_lift]
  cases (next stop).run (copy.note number ⟨start, stop⟩) with
  | error e => rfl
  | ok r =>
    obtain ⟨r, v⟩ := r
    cases r with
    | none => rfl
    | some result => rfl

theorem outcomeOf_moveOn (t : Captures) :
    outcomeOf (fun r _ => r) ((moveOn p stop copy).run t) = advance p stop copy := by
  unfold moveOn advance
  split <;> rfl

/-- **The alternatives of a group** come to what matching them comes to. -/
theorem outcomeOf_alternatives {follow : Nat → Captures → Outcome}
    (hparts : ∀ part ∈ alternatives,
      outcomeOf Prod.mk ((attempt s part p).run t) = matchPieces s part p t)
    (haccept : ∀ stop copy, Atomic (accept stop copy))
    (hfollow : ∀ stop copy, outcomeOf found ((accept stop copy).run t) = follow stop copy) :
    outcomeOf found (((attemptAlternatives s alternatives p).findSomeM? (branch accept)).run t) =
      matchAlternatives s alternatives p t follow := by
  rw [outcomeOf_findSomeM? (fun a _ => .branch haccept a) fun a _ => outcomeOf_branch a t]
  simp only [hfollow]
  induction alternatives with
  | nil => rfl
  | cons part alternatives ih =>
    have hlater := ih fun b hb => hparts b (List.mem_cons_of_mem _ hb)
    rw [attemptAlternatives, tryEach_cons, hparts part List.mem_cons_self, hlater]
    rfl

/-- **The loop over the repetitions of a group** leaves the captures as they were, and collects the
ends and copies that the match goes through. -/
theorem run_collect {repetition : Nat → Attempt (Option (Nat × Captures))}
    (h : ∀ p, Keeps (repetition p)) (t : Captures) (fuel p : Nat) :
    (collect repetition fuel p).run t =
      match chain (fun p => outcomeOf (fun r _ => r) ((repetition p).run t)) fuel p with
      | none => .error ⟨⟩
      | some reps => .ok (reps, t) := by
  induction fuel generalizing p with
  | zero => rfl
  | succ fuel ih =>
    rw [collect, chain, StateT.run_bind]
    have hp := h p t
    cases hrun : (repetition p).run t with
    | error e => rfl
    | ok r =>
      obtain ⟨r, v⟩ := r
      obtain rfl : v = t := hp r v hrun
      cases r with
      | none => rfl
      | some r =>
        obtain ⟨stop, copy⟩ := r
        change (collect repetition fuel stop >>= fun reps => pure ((stop, copy) :: reps)).run v = _
        rw [StateT.run_bind, ih stop]
        dsimp only [outcomeOf]
        cases chain _ fuel stop <;> rfl

/-- **The attempt to match some pieces has the outcome of the match,** from any captures and any
offset. -/
theorem attempt_outcome (s : Subject) (pieces : List Piece) (p : Nat) (t : Captures) :
    outcomeOf Prod.mk ((attempt s pieces p).run t) = matchPieces s pieces p t := by
  induction pieces using pieces_induction generalizing p t with
  | nil => rfl
  | atom x q rest ih =>
    rw [attempt, attemptPiece, matchPieces, matchPiece, matchAtom, lookAhead]
    cases s.ahead p with
    | none => rfl
    | some ahead =>
      exact outcomeOf_findSomeM? (fun m _ => attempt_atomic s rest m) fun m _ => ih m t
  | backref n q rest ih =>
    rw [attempt, attemptPiece, matchPieces, matchPiece, matchBackref, StateT.run_bind,
      StateT.run_get, pure_bind]
    cases t.text? s n with
    | none => rfl
    | some text =>
      dsimp only
      rw [lookAhead]
      cases s.ahead p with
      | none => rfl
      | some ahead =>
        rw [pure_bind]
        dsimp only
        split
        · exact ih _ t
        · rfl
  | group number alternatives q rest iha ih =>
    -- what comes after the group goes on from the copy of an alternative, with the group's span
    have hcommit : ∀ stop copy, outcomeOf Prod.mk
        ((commitBranch number p (attempt s rest) stop copy).run t) =
          matchPieces s rest stop (copy.note number ⟨p, stop⟩) := by
      intro stop copy
      rw [outcomeOf_commitBranch, ih]
    have honce := outcomeOf_alternatives (fun part ha => iha part ha p t)
      (fun _ _ => commitBranch_atomic) hcommit
    cases q with
    | one =>
      rw [attempt, attemptPiece, matchPieces, matchPiece]
      exact honce
    | optional =>
      rw [attempt, attemptPiece, matchPieces, matchPiece, ← honce, StateT.run_bind]
      cases hrun : StateT.run _ t with
      | error e => rfl
      | ok r =>
        obtain ⟨r, v⟩ := r
        cases r with
        | some stop => rfl
        | none =>
          obtain rfl : v = t := atomic_once t v hrun
          exact ih p v
    | plus =>
      have hrepetition : ∀ k, outcomeOf (fun r _ => r) (((attemptAlternatives s alternatives
          k).findSomeM? (branch (moveOn k))).run t) =
            matchAlternatives s alternatives k t (advance k) :=
        fun k => outcomeOf_alternatives (fun part ha => iha part ha k t)
          (fun _ _ => keeps_moveOn.atomic) fun _ _ => outcomeOf_moveOn t
      rw [attempt, attemptPiece, matchPieces, matchPiece_group_plus, StateT.run_bind,
        run_collect (fun k => keeps_repetition), repetitions]
      simp only [hrepetition]
      cases chain _ _ p with
      | none => rfl
      | some reps =>
        exact outcomeOf_findSomeM? (fun rep _ => commitBranch_atomic) fun rep _ =>
          hcommit rep.1 rep.2

/-- **The result of an attempt and the captures that it leaves:** those of the match, or the
captures that it began with. -/
theorem run_attempt (s : Subject) (pieces : List Piece) (p : Nat) (t : Captures) :
    (attempt s pieces p).run t =
      match matchPieces s pieces p t with
      | .offBoundary => .error ⟨⟩
      | .failed => .ok (none, t)
      | .matched stop u => .ok (some stop, u) := by
  have hatomic := attempt_atomic s pieces p t
  rw [← attempt_outcome]
  cases hrun : (attempt s pieces p).run t with
  | error e => rfl
  | ok r =>
    obtain ⟨r, v⟩ := r
    cases r with
    | none => rw [hatomic v hrun]; rfl
    | some stop => rfl

end LineSearch
