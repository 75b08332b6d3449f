import LineSearch.Proofs.Soundness

/-!
# Offsets stay on boundaries

A match that begins at a character boundary only ever looks at the line from boundaries, whatever
spans the captures hold. A match that begins anywhere else does not move.

* `Outcome.Stays`: an outcome that ends where it began, if it matches at all.
* `matchPieces_stays`: so does every match that begins off the boundaries.
* `matchPieces_positions`: where a match looks, ends and captures.
-/

namespace LineSearch

variable {s : Subject} {pieces : List Piece} {alternatives : List (List Piece)} {p : Nat}
  {t : Captures}

/-- The outcome of a match at offset `p` that has taken nothing, if it matches at all. -/
inductive Outcome.Stays (p : Nat) : Outcome → Prop
  | offBoundary : Stays p .offBoundary
  | failed : Stays p .failed
  | matched {t : Captures} : Stays p (.matched p t)

namespace Outcome.Stays

variable {o : Outcome}

theorem orElse {next : Unit → Outcome} (h : Stays p o) (hnext : Stays p (next ())) :
    Stays p (o.orElse next) := by
  cases h with
  | offBoundary => exact .offBoundary
  | failed => exact hnext
  | matched => exact .matched

theorem andThen {next : Nat → Captures → Outcome} (h : Stays p o)
    (hnext : ∀ t, Stays p (next p t)) : Stays p (o.andThen next) := by
  cases h with
  | offBoundary => exact .offBoundary
  | failed => exact .failed
  | matched => exact hnext _

end Outcome.Stays

open Outcome

theorem matchAlternatives_stays {next : Nat → Captures → Outcome}
    (hparts : ∀ part ∈ alternatives, Stays p (matchPieces s part p t))
    (hnext : ∀ t, Stays p (next p t)) : Stays p (matchAlternatives s alternatives p t next) := by
  induction alternatives with
  | nil => exact .failed
  | cons part alternatives ih =>
    have hpart := (hparts part List.mem_cons_self).andThen hnext
    have hlater := ih fun b hb => hparts b (List.mem_cons_of_mem _ hb)
    exact hpart.orElse hlater

/-- A repetition that does not move does not count, so there is none where nothing can move. -/
theorem matchAlternatives_advance
    (hparts : ∀ part ∈ alternatives, Stays p (matchPieces s part p t)) :
    matchAlternatives s alternatives p t (advance p) = .offBoundary ∨
      matchAlternatives s alternatives p t (advance p) = .failed := by
  induction alternatives with
  | nil => exact .inr rfl
  | cons part alternatives ih =>
    have hlater := ih fun b hb => hparts b (List.mem_cons_of_mem _ hb)
    rw [matchAlternatives]
    have hpart := hparts part List.mem_cons_self
    generalize matchPieces s part p t = o at hpart ⊢
    cases hpart with
    | offBoundary => exact .inl rfl
    | failed => exact hlater
    | @matched u =>
      have hfail : advance p p u = .failed := if_neg (Nat.lt_irrefl p)
      rw [matched_andThen, hfail, failed_orElse]
      exact hlater

/-- **Off the boundaries nothing moves:** a match that begins there has to look from a bad offset,
fails, or ends where it began. -/
theorem matchPieces_stays (hp : p ∉ s.starts) : Stays p (matchPieces s pieces p t) := by
  have hahead : s.ahead p = none := by
    rw [Option.eq_none_iff_forall_ne_some]
    intro ahead h
    exact hp (Subject.mem_starts_iff.2 ⟨ahead, h⟩)
  induction pieces using pieces_induction generalizing t with
  | nil => exact .matched
  | atom x q rest ih =>
    rw [matchPieces, matchPiece, matchAtom, hahead]
    exact .offBoundary
  | backref n q rest ih =>
    rw [matchPieces, matchPiece, matchBackref, hahead]
    cases t.text? s n with
    | none => exact .failed
    | some w => exact .offBoundary
  | group number alternatives q rest iha ih =>
    have hparts : ∀ part ∈ alternatives, Stays p (matchPieces s part p t) :=
      fun part ha => iha part ha
    have honce : Stays p (matchAlternatives s alternatives p t fun stop u =>
        matchPieces s rest stop (u.note number ⟨p, stop⟩)) :=
      matchAlternatives_stays hparts fun u => ih
    cases q with
    | one => exact honce
    | optional =>
      rw [matchPieces, matchPiece]
      exact honce.orElse ih
    | plus =>
      -- the loop over the repetitions ends at its first step
      rw [matchPieces, matchPiece_group_plus, repetitions, chain]
      rcases matchAlternatives_advance hparts with h | h
      · rw [h]
        exact .offBoundary
      · rw [h]
        exact .failed

/-- **A match stays on the boundaries.** From a boundary of the line, whatever spans the captures
hold, no piece looks from a bad offset. A match ends at a boundary that lies no earlier and no later
than the end of the line, and each span that it changes becomes one between two boundaries, from
where it began up to where it ends. From any other offset a match can only end where it began,
unless it looks from a bad offset. -/
theorem matchPieces_positions (s : Subject) (pieces : List Piece) (p : Nat) (t : Captures) :
    (p ∈ s.starts →
      matchPieces s pieces p t ≠ .offBoundary ∧
      ∀ e u, matchPieces s pieces p t = .matched e u →
        p ≤ e ∧ e ≤ s.size ∧ e ∈ s.starts ∧
        ∀ g, u.span? g ≠ t.span? g → ∃ σ, u.span? g = some σ ∧
          p ≤ σ.start ∧ σ.start ≤ σ.stop ∧ σ.stop ≤ e ∧ σ.start ∈ s.starts ∧ σ.stop ∈ s.starts) ∧
    (p ∉ s.starts →
      matchPieces s pieces p t = .offBoundary ∨ matchPieces s pieces p t = .failed ∨
        ∃ u, matchPieces s pieces p t = .matched p u) := by
  refine ⟨fun hp => ⟨matchPieces_ne_offBoundary hp, ?_⟩, fun hp => ?_⟩
  · intro e u h
    have hd := derives_of_matchPieces hp h
    have he := hd.mem_starts hp
    refine ⟨hd.le, Subject.le_size_of_mem_starts he, he, ?_⟩
    intro g hg
    obtain ⟨-, σ, hσ, h1, h2, h3⟩ := (hd.span?_cases g).resolve_left hg
    obtain ⟨ρ, hρ, h4, h5⟩ := (hd.span?_mem_starts hp g).resolve_left hg
    rw [hσ] at hρ
    cases hρ
    exact ⟨σ, hσ, h1, h2, h3, h4, h5⟩
  · have hstays : Stays p (matchPieces s pieces p t) := matchPieces_stays hp
    generalize matchPieces s pieces p t = o at hstays ⊢
    cases hstays with
    | offBoundary => exact .inl rfl
    | failed => exact .inr (.inl rfl)
    | matched => exact .inr (.inr ⟨_, rfl⟩)

/-- Captures with a reversed span, one that a back-reference reads, and one that cuts a character;
then a start inside a character. -/
theorem matchPieces_positions_stale :
    0 ∈ (Subject.ofString "aéé").starts ∧
      matchPieces (.ofString "aéé") [.group (some 1) [[.atom (.literal 'a') .one]] .one,
          .backref 3 .one, .group (some 2) [[.atom (.literal 'é') .one]] .plus] 0
          ⟨[some ⟨9, 1⟩, none, some ⟨1, 3⟩, some ⟨2, 2⟩]⟩ =
        .matched 5 ⟨[some ⟨0, 1⟩, some ⟨3, 5⟩, some ⟨1, 3⟩, some ⟨2, 2⟩]⟩ ∧
      5 ∈ (Subject.ofString "aéé").starts ∧
      (∀ g, Captures.span? ⟨[some ⟨0, 1⟩, some ⟨3, 5⟩, some ⟨1, 3⟩, some ⟨2, 2⟩]⟩ g ≠
          Captures.span? ⟨[some ⟨9, 1⟩, none, some ⟨1, 3⟩, some ⟨2, 2⟩]⟩ g →
        ∃ σ, Captures.span? ⟨[some ⟨0, 1⟩, some ⟨3, 5⟩, some ⟨1, 3⟩, some ⟨2, 2⟩]⟩ g = some σ ∧
          0 ≤ σ.start ∧ σ.start ≤ σ.stop ∧ σ.stop ≤ 5 ∧
          σ.start ∈ (Subject.ofString "aéé").starts ∧ σ.stop ∈ (Subject.ofString "aéé").starts) ∧
      2 ∉ (Subject.ofString "aéé").starts ∧
      (matchPieces (.ofString "aéé") [.group (some 1) [[], [.atom .any .one]] .one] 2 .empty =
          .offBoundary ∨
        matchPieces (.ofString "aéé") [.group (some 1) [[], [.atom .any .one]] .one] 2 .empty =
          .failed ∨
        ∃ u, matchPieces (.ofString "aéé") [.group (some 1) [[], [.atom .any .one]] .one] 2 .empty =
          .matched 2 u) := by
  have hp : 0 ∈ (Subject.ofString "aéé").starts := Subject.zero_mem_starts
  have hmatch : matchPieces (.ofString "aéé") [.group (some 1) [[.atom (.literal 'a') .one]] .one,
      .backref 3 .one, .group (some 2) [[.atom (.literal 'é') .one]] .plus] 0
      ⟨[some ⟨9, 1⟩, none, some ⟨1, 3⟩, some ⟨2, 2⟩]⟩ =
        .matched 5 ⟨[some ⟨0, 1⟩, some ⟨3, 5⟩, some ⟨1, 3⟩, some ⟨2, 2⟩]⟩ := by decide
  have hoff : 2 ∉ (Subject.ofString "aéé").starts := by decide
  obtain ⟨-, -, he, hspans⟩ := ((matchPieces_positions _ _ _ _).1 hp).2 _ _ hmatch
  exact ⟨hp, hmatch, he, hspans, hoff, (matchPieces_positions _ _ _ _).2 hoff⟩

end LineSearch
