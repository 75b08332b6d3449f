import LineSearch.Proofs.AtomGroup
import LineSearch.Proofs.GroupNumbers

/-!
# The number that groups start from

The number of a group says under which entry of the captures its span is kept. As long as no piece
refers back, nothing else depends on it. So a program that counts on from `k` numbers matches what
the program for the same pattern that counts from the start does, with every span `k` entries
further on.

* `Captures.MovedUp`: captures with all spans `k` groups higher; `MovedUp.note`: so they stay while
  groups note their spans under the higher numbers.
* `matchAlternatives_alike`, `chain_alike`: alternatives and repetitions of runs that end alike.
* `matchPieces_renumber`: pieces with higher numbers, from captures that are moved up.
* `matchPieces_startNumber`: the same for the programs of a pattern.
-/

namespace LineSearch

variable {s : Subject} {pieces rest part : List Piece} {alternatives : List (List Piece)}
  {piece : Piece} {number : Option GroupNumber} {q : Quantifier} {k p : Nat} {t u : Captures}
  {R : Captures → Captures → Prop}

/-- The captures `u` hold the spans of `t`, each `k` groups higher, and nothing below them. -/
structure Captures.MovedUp (k : Nat) (u t : Captures) : Prop where
  above : ∀ g, 0 < g → u.span? (k + g) = t.span? g
  below : ∀ g ≤ k, u.span? g = none

namespace Captures

theorem movedUp_empty (k : Nat) : MovedUp k empty empty := by
  refine ⟨?_, ?_⟩
  · intro g _
    rw [span?_empty, span?_empty]
  · intro g _
    exact span?_empty g

/-- **A span noted under the higher number** keeps the captures moved up. -/
theorem MovedUp.note (h : MovedUp k u t) (number : Option GroupNumber) (span : Span) :
    MovedUp k (u.note (number.map (.add k)) span) (t.note number span) := by
  cases number with
  | none => exact h
  | some n =>
    have hn := n.pos
    have hval : (n.add k).val = k + n := rfl
    refine ⟨?_, ?_⟩
    · intro g hg
      rw [Option.map_some, Captures.note, Captures.note, span?_record, span?_record, h.above g hg]
      by_cases hng : g = n
      · rw [if_pos (by omega), if_pos hng]
      · rw [if_neg (by omega), if_neg hng]
    · intro g hg
      rw [Option.map_some, Captures.note, span?_record, if_neg (by omega)]
      exact h.below g hg

end Captures

open Captures Outcome

section Alike

theorem Outcome.Alike.andThen {o₁ o₂ : Outcome} {next₁ next₂ : Nat → Captures → Outcome}
    (h : Alike R o₁ o₂) (hnext : ∀ stop u t, R u t → Alike R (next₁ stop u) (next₂ stop t)) :
    Alike R (o₁.andThen next₁) (o₂.andThen next₂) := by
  cases h with
  | offBoundary => exact .offBoundary
  | failed => exact .failed
  | matched h => exact hnext _ _ _ h

theorem matchAlternatives_alike {f : List Piece → List Piece}
    {next₁ next₂ : Nat → Captures → Outcome}
    (hparts : ∀ part ∈ alternatives,
      Alike R (matchPieces s (f part) p u) (matchPieces s part p t))
    (hnext : ∀ stop u t, R u t → Alike R (next₁ stop u) (next₂ stop t)) :
    Alike R (matchAlternatives s (alternatives.map f) p u next₁)
      (matchAlternatives s alternatives p t next₂) := by
  induction alternatives with
  | nil => exact .failed
  | cons part alternatives ih =>
    have hpart := (hparts part List.mem_cons_self).andThen hnext
    have hlater := ih fun b hb => hparts b (List.mem_cons_of_mem _ hb)
    exact hpart.orElse hlater

theorem advance_alike {stop : Nat} (h : R u t) :
    Alike R (advance p stop u) (advance p stop t) := by
  unfold advance
  split
  · exact .matched h
  · exact .failed

/-- **The loop over the repetitions of a group** offers the same ends in both runs. -/
theorem chain_alike {step₁ step₂ : Nat → Outcome} (hstep : ∀ m, Alike R (step₁ m) (step₂ m))
    (fuel p : Nat) :
    Option.Rel (List.Forall₂ fun a b => a.1 = b.1 ∧ R a.2 b.2)
      (chain step₁ fuel p) (chain step₂ fuel p) := by
  induction fuel generalizing p with
  | zero => exact .some .nil
  | succ fuel ih =>
    rw [chain, chain]
    have hp := hstep p
    generalize step₁ p = o₁ at hp ⊢
    generalize step₂ p = o₂ at hp ⊢
    cases hp with
    | offBoundary => exact .none
    | failed => exact .some .nil
    | @matched stop u t hR =>
      have hlater := ih stop
      simp only
      generalize chain step₁ fuel stop = reps₁ at hlater ⊢
      generalize chain step₂ fuel stop = reps₂ at hlater ⊢
      cases hlater with
      | none => exact .none
      | some hreps => exact .some (.cons ⟨rfl, hR⟩ hreps)

theorem repetitions_alike {f : List Piece → List Piece}
    (hparts : ∀ m, ∀ part ∈ alternatives,
      Alike R (matchPieces s (f part) m u) (matchPieces s part m t)) :
    Option.Rel (List.Forall₂ fun a b => a.1 = b.1 ∧ R a.2 b.2)
      (repetitions s (alternatives.map f) p u) (repetitions s alternatives p t) := by
  have hstep : ∀ m, Alike R (matchAlternatives s (alternatives.map f) m u (advance m))
      (matchAlternatives s alternatives m t (advance m)) :=
    fun m => matchAlternatives_alike (hparts m) fun stop u t h => advance_alike h
  exact chain_alike hstep _ p

end Alike

theorem renumberAlternatives_eq_map (k : Nat) (alternatives : List (List Piece)) :
    renumberAlternatives k alternatives = alternatives.map (renumber k) := by
  induction alternatives with
  | nil => rfl
  | cons part alternatives ih => rw [renumberAlternatives, List.map_cons, ih]

/-- **Pieces with higher numbers** run like the pieces themselves, from captures that are moved up
as much. They end alike and leave the captures moved up again. -/
theorem matchPieces_renumber (hfree : ∀ n q, ¬ Occurs (.backref n q) pieces)
    (h : MovedUp k u t) :
    Alike (MovedUp k) (matchPieces s (renumber k pieces) p u) (matchPieces s pieces p t) := by
  induction pieces using pieces_induction generalizing p u t with
  | nil => exact .matched h
  | atom x q rest ih =>
    rw [renumber, Piece.renumber, matchPieces, matchPieces, matchPiece, matchPiece, matchAtom,
      matchAtom]
    cases s.ahead p with
    | none => exact .offBoundary
    | some ahead => exact .tryEach fun m _ => ih (fun n q hn => hfree n q hn.tail) h
  | backref n q rest ih => exact absurd (occurs_of_mem List.mem_cons_self) (hfree n q)
  | group number alternatives q rest iha ih =>
    have hparts : ∀ m, ∀ part ∈ alternatives,
        Alike (MovedUp k) (matchPieces s (renumber k part) m u) (matchPieces s part m t) :=
      fun m part ha =>
        iha part ha (fun n q hn => hfree n q (occurs_of_part List.mem_cons_self ha hn)) h
    -- what follows goes on from the same end, the group's own span moved up like the others
    have hfollow : ∀ stop u t, MovedUp k u t → Alike (MovedUp k)
        (matchPieces s (renumber k rest) stop (u.note (number.map (.add k)) ⟨p, stop⟩))
        (matchPieces s rest stop (t.note number ⟨p, stop⟩)) :=
      fun stop u t hmoved => ih (fun n q hn => hfree n q hn.tail) (hmoved.note number _)
    have hskip : Alike (MovedUp k) (matchPieces s (renumber k rest) p u)
        (matchPieces s rest p t) := ih (fun n q hn => hfree n q hn.tail) h
    rw [renumber, Piece.renumber, renumberAlternatives_eq_map, matchPieces, matchPieces]
    cases q with
    | one =>
      rw [matchPiece, matchPiece]
      exact matchAlternatives_alike (hparts p) hfollow
    | optional =>
      rw [matchPiece, matchPiece]
      exact (matchAlternatives_alike (hparts p) hfollow).orElse hskip
    | plus =>
      have hreps := repetitions_alike (p := p) hparts
      rw [matchPiece_group_plus, matchPiece_group_plus]
      generalize repetitions s (alternatives.map (renumber k)) p u = reps₁ at hreps ⊢
      generalize repetitions s alternatives p t = reps₂ at hreps ⊢
      cases hreps with
      | none => exact .offBoundary
      | some hreps =>
        refine .tryEach_forall₂ ((List.forall₂_reverse_iff.2 hreps).imp ?_)
        rintro ⟨stop, u⟩ ⟨_, t⟩ ⟨rfl, hmoved⟩
        exact hfollow stop u t hmoved

/-- **The number that groups start from makes no difference to a match** if the pattern has no
back-references. From a boundary of any line and with nothing captured, the program that counts on
from `k` numbers and the one that counts from the start both fail, or both match up to the same
offset. Then the span of group `k + i` in the first result is that of group `i` in the second, and
groups `1` to `k` have none in the first. -/
theorem matchPieces_startNumber (pattern : List Char) (k : Nat) (s : Subject) (p : Nat)
    (hfree : ∀ n q, ¬ Occurs (.backref n q) (compile pattern 0).pieces) (hp : p ∈ s.starts) :
    (matchPieces s (compile pattern k).pieces p .empty = .failed ∧
        matchPieces s (compile pattern 0).pieces p .empty = .failed) ∨
      ∃ e u v, matchPieces s (compile pattern k).pieces p .empty = .matched e u ∧
        matchPieces s (compile pattern 0).pieces p .empty = .matched e v ∧
        (∀ i, 1 ≤ i → u.span? (k + i) = v.span? i) ∧ ∀ g, 1 ≤ g → g ≤ k → u.span? g = none := by
  have hon : matchPieces s (compile pattern 0).pieces p .empty ≠ .offBoundary :=
    matchPieces_ne_offBoundary hp
  have halike := matchPieces_renumber (s := s) (p := p) hfree (movedUp_empty k)
  rw [compile_renumber pattern k]
  generalize matchPieces s (renumber k (compile pattern 0).pieces) p .empty = o₁ at halike ⊢
  generalize matchPieces s (compile pattern 0).pieces p .empty = o₂ at hon halike ⊢
  cases halike with
  | offBoundary => exact absurd rfl hon
  | failed => exact .inl ⟨rfl, rfl⟩
  | matched h => exact .inr ⟨_, _, _, rfl, rfl, h.above, fun g _ hg => h.below g hg⟩

/-- Groups in a repeated group, one of them left out of the last repetition, from the middle of a
line, two numbers being in use. -/
theorem matchPieces_startNumber_nested :
    let pattern := "((a+)b?|(é)c)+d?".toList
    let s := Subject.ofString "éaabéca"
    (∀ n q, ¬ Occurs (.backref n q) (compile pattern 0).pieces) ∧ 2 ∈ s.starts ∧
      ∃ e u v, matchPieces s (compile pattern 2).pieces 2 .empty = .matched e u ∧
        matchPieces s (compile pattern 0).pieces 2 .empty = .matched e v ∧
        (∀ i, 1 ≤ i → u.span? (2 + i) = v.span? i) ∧ ∀ g, 1 ≤ g → g ≤ 2 → u.span? g = none := by
  intro pattern s
  have hpieces : (compile pattern 0).pieces =
      [.group (some 1) [[.group (some 2) [[.atom (.literal 'a') .plus]] .one,
          .atom (.literal 'b') .optional],
        [.group (some 3) [[.atom (.literal 'é') .one]] .one, .atom (.literal 'c') .one]] .plus,
        .atom (.literal 'd') .optional] := by
    decide +kernel
  have hfree : ∀ n q, ¬ Occurs (.backref n q) (compile pattern 0).pieces := by
    rw [hpieces]
    simp
  have hp : 2 ∈ s.starts := by decide +kernel
  refine ⟨hfree, hp, ?_⟩
  refine (matchPieces_startNumber pattern 2 s 2 hfree hp).resolve_left fun h => ?_
  exact absurd h.2 (by decide +kernel)

end LineSearch
