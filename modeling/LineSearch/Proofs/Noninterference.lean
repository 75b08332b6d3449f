import LineSearch.Proofs.Attempts
import LineSearch.Proofs.Paths
import LineSearch.Session

/-!
# What earlier captures can change

A match sees earlier captures only through its back-references, and of what it does to them only
the spans of its own groups remain.

* `Captures.Overrides`: captures that are some others overridden by the spans of a third.
* `Captures.AgreeFor`: two captures show the same texts to the back-references of some pieces.
* `Outcome.SameFrom`: two outcomes that end alike and record the same spans, each in its own
  captures.
* `matchPieces_sameFrom`: so end two runs from captures that agree, wherever they start;
  `attempt_agree`: and so do two attempts, in place.
* `captures_noninterference`: from a boundary, what two runs or two sessions have in common.
-/

namespace LineSearch

variable {s : Subject} {pieces rest part : List Piece} {alternatives : List (List Piece)}
  {number : Option GroupNumber} {p : Nat} {t t₁ t₂ u : Captures} {groups groups' : List Nat}
  {writes : List (GroupNumber × Span)}

namespace Captures

/-- Records spans one after another. -/
def recordAll (t : Captures) (writes : List (GroupNumber × Span)) : Captures :=
  writes.foldl (fun t w => t.record w.1 w.2) t

@[simp] theorem recordAll_nil (t : Captures) : t.recordAll [] = t := rfl

theorem recordAll_cons (t : Captures) (w : GroupNumber × Span)
    (writes : List (GroupNumber × Span)) :
    t.recordAll (w :: writes) = (t.record w.1 w.2).recordAll writes := rfl

theorem recordAll_append (t : Captures) (l r : List (GroupNumber × Span)) :
    t.recordAll (l ++ r) = (t.recordAll l).recordAll r := by
  simp only [recordAll, List.foldl_append]

theorem note_recordAll (t : Captures) (number : Option GroupNumber) (span : Span) :
    (t.recordAll writes).note number span =
      t.recordAll (writes ++ number.toList.map (·, span)) := by
  rw [recordAll_append]
  cases number <;> rfl

/-- The captures `u` are `t` with the spans of `w` in place of its own wherever `w` has one. -/
def Overrides (u t w : Captures) : Prop :=
  ∀ g, u.span? g = (w.span? g).or (t.span? g)

theorem overrides_record (t : Captures) (g : GroupNumber) (span : Span) :
    (t.record g span).Overrides t (empty.record g span) := by
  intro h
  rw [span?_record, span?_record]
  by_cases hgh : h = g
  · rw [if_pos hgh, if_pos hgh, Option.some_or]
  · rw [if_neg hgh, if_neg hgh, span?_empty, Option.none_or]

/-- **Recording spans overrides** whatever was captured before. -/
theorem overrides_recordAll (t : Captures) (writes : List (GroupNumber × Span)) :
    (t.recordAll writes).Overrides t (empty.recordAll writes) := by
  induction writes generalizing t with
  | nil =>
    intro g
    rw [recordAll_nil, recordAll_nil, span?_empty, Option.none_or]
  | cons w writes ih =>
    intro g
    have hlater := ih (t.record w.1 w.2) g
    have hempty := ih (empty.record w.1 w.2) g
    have hfirst := overrides_record t w.1 w.2 g
    rw [recordAll_cons, recordAll_cons, hlater, hempty, hfirst, Option.or_assoc]

/-- A group keeps its span if none is recorded for it. -/
theorem span?_recordAll_of_forall_ne {g : Nat} (h : ∀ w ∈ writes, w.1.val ≠ g) :
    (t.recordAll writes).span? g = t.span? g := by
  induction writes generalizing t with
  | nil => rfl
  | cons w writes ih =>
    have hw : w.1.val ≠ g := h w List.mem_cons_self
    have hlater : (t.recordAll (w :: writes)).span? g = (t.record w.1 w.2).span? g :=
      ih fun v hv => h v (List.mem_cons_of_mem _ hv)
    rw [hlater, span?_record, if_neg hw.symm]

/-- The same spans recorded in both leave captures that show the same text of a group, if they
did before. -/
theorem text?_recordAll {n : Nat} (h : t₁.text? s n = t₂.text? s n) :
    (t₁.recordAll writes).text? s n = (t₂.recordAll writes).text? s n := by
  have h₁ := overrides_recordAll t₁ writes n
  have h₂ := overrides_recordAll t₂ writes n
  unfold text? at *
  rw [h₁, h₂]
  cases (empty.recordAll writes).span? n with
  | none => exact h
  | some span => rfl

/-- Two captures show the same texts to the back-references that stand in some pieces. -/
def AgreeFor (s : Subject) (pieces : List Piece) (t₁ t₂ : Captures) : Prop :=
  ∀ n q, Occurs (.backref n q) pieces → t₁.text? s n = t₂.text? s n

theorem AgreeFor.recordAll (h : AgreeFor s pieces t₁ t₂) (writes : List (GroupNumber × Span)) :
    AgreeFor s pieces (t₁.recordAll writes) (t₂.recordAll writes) :=
  fun n q hn => text?_recordAll (h n q hn)

theorem AgreeFor.tail {piece : Piece} (h : AgreeFor s (piece :: rest) t₁ t₂) :
    AgreeFor s rest t₁ t₂ :=
  fun n q hn => h n q hn.tail

theorem AgreeFor.note (h : AgreeFor s pieces t₁ t₂) (writes : List (GroupNumber × Span))
    (number : Option GroupNumber) (span : Span) :
    AgreeFor s pieces ((t₁.recordAll writes).note number span)
      ((t₂.recordAll writes).note number span) := by
  rw [note_recordAll, note_recordAll]
  exact h.recordAll _

theorem AgreeFor.alternative {q : Quantifier}
    (h : AgreeFor s (.group number alternatives q :: rest) t₁ t₂) (ha : part ∈ alternatives) :
    AgreeFor s part t₁ t₂ :=
  fun n q hn => h n q (occurs_of_part List.mem_cons_self ha hn)

end Captures

open Captures

/-- Two outcomes, one from the captures `t₁` and one from `t₂`, that end alike and differ only in
what was captured before: both record the same spans, of groups among `groups`. -/
inductive Outcome.SameFrom (groups : List Nat) (t₁ t₂ : Captures) : Outcome → Outcome → Prop
  | offBoundary : SameFrom groups t₁ t₂ .offBoundary .offBoundary
  | failed : SameFrom groups t₁ t₂ .failed .failed
  | matched {stop : Nat} {writes : List (GroupNumber × Span)}
      (hw : ∀ w ∈ writes, w.1.val ∈ groups) :
    SameFrom groups t₁ t₂ (.matched stop (t₁.recordAll writes))
      (.matched stop (t₂.recordAll writes))

namespace Outcome.SameFrom

variable {o₁ o₂ : Outcome}

theorem mono (h : SameFrom groups t₁ t₂ o₁ o₂) (hsub : groups ⊆ groups') :
    SameFrom groups' t₁ t₂ o₁ o₂ := by
  cases h with
  | offBoundary => exact .offBoundary
  | failed => exact .failed
  | matched hw => exact .matched fun w hmem => hsub (hw w hmem)

/-- What was recorded before a part of a match counts as recorded by the whole. -/
theorem after (h : SameFrom groups (t₁.recordAll writes) (t₂.recordAll writes) o₁ o₂)
    (hw : ∀ w ∈ writes, w.1.val ∈ groups) : SameFrom groups t₁ t₂ o₁ o₂ := by
  cases h with
  | offBoundary => exact .offBoundary
  | failed => exact .failed
  | @matched stop later hlater =>
    rw [← recordAll_append, ← recordAll_append]
    refine .matched fun w hmem => ?_
    rcases List.mem_append.1 hmem with hmem | hmem
    · exact hw w hmem
    · exact hlater w hmem

/-- The same for the span of a group and what was recorded inside the group before it. -/
theorem after_note {span : Span}
    (h : SameFrom groups ((t₁.recordAll writes).note number span)
      ((t₂.recordAll writes).note number span) o₁ o₂)
    (hw : ∀ w ∈ writes, w.1.val ∈ groups) (hnumber : ∀ g ∈ number.toList, g.val ∈ groups) :
    SameFrom groups t₁ t₂ o₁ o₂ := by
  rw [note_recordAll, note_recordAll] at h
  refine h.after fun w hmem => ?_
  rcases List.mem_append.1 hmem with hmem | hmem
  · exact hw w hmem
  · obtain ⟨g, hg, rfl⟩ := List.mem_map.1 hmem
    exact hnumber g hg

theorem orElse {next₁ next₂ : Unit → Outcome} (h : SameFrom groups t₁ t₂ o₁ o₂)
    (hnext : SameFrom groups t₁ t₂ (next₁ ()) (next₂ ())) :
    SameFrom groups t₁ t₂ (o₁.orElse next₁) (o₂.orElse next₂) := by
  cases h with
  | offBoundary => exact .offBoundary
  | failed => exact hnext
  | matched hw => exact .matched hw

theorem andThen {next₁ next₂ : Nat → Captures → Outcome} (h : SameFrom groups t₁ t₂ o₁ o₂)
    (hnext : ∀ stop writes, (∀ w ∈ writes, w.1.val ∈ groups) →
      SameFrom groups' t₁ t₂ (next₁ stop (t₁.recordAll writes))
        (next₂ stop (t₂.recordAll writes))) :
    SameFrom groups' t₁ t₂ (o₁.andThen next₁) (o₂.andThen next₂) := by
  cases h with
  | offBoundary => exact .offBoundary
  | failed => exact .failed
  | matched hw => exact hnext _ _ hw

theorem tryEach {α : Type} {next₁ next₂ : α → Outcome} {as : List α}
    (h : ∀ a ∈ as, SameFrom groups t₁ t₂ (next₁ a) (next₂ a)) :
    SameFrom groups t₁ t₂ (LineSearch.tryEach next₁ as) (LineSearch.tryEach next₂ as) := by
  induction as with
  | nil => exact .failed
  | cons a as ih =>
    have hhead := h a List.mem_cons_self
    have htail := ih fun b hb => h b (List.mem_cons_of_mem _ hb)
    exact hhead.orElse htail

end Outcome.SameFrom

open Outcome

theorem matchAlternatives_sameFrom {next₁ next₂ : Nat → Captures → Outcome}
    (hparts : ∀ part ∈ alternatives,
      SameFrom groups t₁ t₂ (matchPieces s part p t₁) (matchPieces s part p t₂))
    (hnext : ∀ stop writes, (∀ w ∈ writes, w.1.val ∈ groups) →
      SameFrom groups' t₁ t₂ (next₁ stop (t₁.recordAll writes))
        (next₂ stop (t₂.recordAll writes))) :
    SameFrom groups' t₁ t₂ (matchAlternatives s alternatives p t₁ next₁)
      (matchAlternatives s alternatives p t₂ next₂) := by
  induction alternatives with
  | nil => exact .failed
  | cons part alternatives ih =>
    have hpart := (hparts part List.mem_cons_self).andThen hnext
    have hlater := ih fun b hb => hparts b (List.mem_cons_of_mem _ hb)
    exact hpart.orElse hlater

theorem advance_sameFrom {stop : Nat} (hw : ∀ w ∈ writes, w.1.val ∈ groups) :
    SameFrom groups t₁ t₂ (advance p stop (t₁.recordAll writes))
      (advance p stop (t₂.recordAll writes)) := by
  unfold advance
  split
  · exact .matched hw
  · exact .failed

/-- A repetition taken by both runs: where it ends, and the spans that it recorded. -/
abbrev Repetition := Nat × List (GroupNumber × Span)

/-- **The loop over the repetitions of a group** makes the same repetitions in both runs. -/
theorem chain_sameFrom {step₁ step₂ : Nat → Outcome}
    (hstep : ∀ k, SameFrom groups t₁ t₂ (step₁ k) (step₂ k)) (fuel : Nat) (p : Nat) :
    (chain step₁ fuel p = none ∧ chain step₂ fuel p = none) ∨
      ∃ reps : List Repetition, (∀ r ∈ reps, ∀ w ∈ r.2, w.1.val ∈ groups) ∧
        chain step₁ fuel p = some (reps.map fun r => (r.1, t₁.recordAll r.2)) ∧
        chain step₂ fuel p = some (reps.map fun r => (r.1, t₂.recordAll r.2)) := by
  induction fuel generalizing p with
  | zero => exact .inr ⟨[], by simp, rfl, rfl⟩
  | succ fuel ih =>
    rw [chain, chain]
    have hp := hstep p
    generalize step₁ p = o₁ at hp ⊢
    generalize step₂ p = o₂ at hp ⊢
    cases hp with
    | offBoundary => exact .inl ⟨rfl, rfl⟩
    | failed => exact .inr ⟨[], by simp, rfl, rfl⟩
    | @matched stop writes hw =>
      rcases ih stop with ⟨h₁, h₂⟩ | ⟨reps, hreps, h₁, h₂⟩
      · left
        simp only [h₁, h₂, Option.map_none, and_self]
      · right
        refine ⟨(stop, writes) :: reps, ?_, by simp only [h₁]; rfl, by simp only [h₂]; rfl⟩
        intro r hr
        rcases List.mem_cons.1 hr with rfl | hr
        · exact hw
        · exact hreps r hr

/-- **Two runs from captures that agree for the pieces have the same outcome,** from any offset. -/
theorem matchPieces_sameFrom (h : AgreeFor s pieces t₁ t₂) :
    SameFrom (numbers pieces) t₁ t₂ (matchPieces s pieces p t₁) (matchPieces s pieces p t₂) := by
  induction pieces using pieces_induction generalizing p t₁ t₂ with
  | nil =>
    have hnil : SameFrom (numbers []) t₁ t₂ (.matched p (t₁.recordAll []))
        (.matched p (t₂.recordAll [])) := .matched (by simp)
    exact hnil
  | atom x q rest ih =>
    rw [matchPieces, matchPieces, matchPiece, matchPiece, matchAtom, matchAtom]
    cases s.ahead p with
    | none => exact .offBoundary
    | some ahead => exact .tryEach fun m _ => ih h.tail
  | backref n q rest ih =>
    have htext : t₁.text? s n = t₂.text? s n := h n q (occurs_of_mem List.mem_cons_self)
    rw [matchPieces, matchPieces, matchPiece, matchPiece, matchBackref, matchBackref, htext]
    cases t₂.text? s n with
    | none => exact .failed
    | some w =>
      cases s.ahead p with
      | none => exact .offBoundary
      | some ahead =>
        simp only
        split
        · exact ih h.tail
        · exact .failed
  | group number alternatives q rest iha ih =>
    have hrest : numbers rest ⊆ numbers (.group number alternatives q :: rest) :=
      List.subset_append_right _ _
    have hinner : alternatives.flatMap numbers ⊆
        numbers (.group number alternatives q :: rest) := by
      intro g hg
      rw [numbers_cons, numbers_group]
      exact List.mem_append_left _ (List.mem_append_right _ hg)
    have hnumber : ∀ g ∈ number.toList, g.val ∈ numbers (.group number alternatives q :: rest) := by
      intro g hg
      obtain rfl := Option.mem_toList.1 hg
      exact List.mem_append_left _ self_mem_numbers
    -- an alternative from any offset, and what comes after the group from any end of it
    have hparts : ∀ k, ∀ part ∈ alternatives, SameFrom (alternatives.flatMap numbers) t₁ t₂
        (matchPieces s part k t₁) (matchPieces s part k t₂) := by
      intro k part ha
      have hsub : numbers part ⊆ alternatives.flatMap numbers :=
        fun g hg => List.mem_flatMap.2 ⟨part, ha, hg⟩
      exact (iha part ha (h.alternative ha)).mono hsub
    have hfollow : ∀ stop writes, (∀ w ∈ writes, w.1.val ∈ alternatives.flatMap numbers) →
        SameFrom (numbers (.group number alternatives q :: rest)) t₁ t₂
          (matchPieces s rest stop ((t₁.recordAll writes).note number ⟨p, stop⟩))
          (matchPieces s rest stop ((t₂.recordAll writes).note number ⟨p, stop⟩)) := by
      intro stop writes hw
      have hsame := (ih (p := stop) (h.tail.note writes number ⟨p, stop⟩)).mono hrest
      exact hsame.after_note (fun w hmem => hinner (hw w hmem)) hnumber
    have hskip : SameFrom (numbers (.group number alternatives q :: rest)) t₁ t₂
        (matchPieces s rest p t₁) (matchPieces s rest p t₂) :=
      (ih h.tail).mono hrest
    cases q with
    | one => exact matchAlternatives_sameFrom (hparts p) hfollow
    | optional =>
      rw [matchPieces, matchPieces, matchPiece, matchPiece]
      exact (matchAlternatives_sameFrom (hparts p) fun stop writes hw =>
        hfollow stop writes hw).orElse hskip
    | plus =>
      have hstep : ∀ k, SameFrom (alternatives.flatMap numbers) t₁ t₂
          (matchAlternatives s alternatives k t₁ (advance k))
          (matchAlternatives s alternatives k t₂ (advance k)) := by
        intro k
        exact matchAlternatives_sameFrom (hparts k) fun stop writes hw => advance_sameFrom hw
      rw [matchPieces, matchPieces, matchPiece_group_plus, matchPiece_group_plus, repetitions,
        repetitions]
      rcases chain_sameFrom hstep (s.size - p + 1) p with ⟨h₁, h₂⟩ | ⟨reps, hreps, h₁, h₂⟩
      · rw [h₁, h₂]
        exact .offBoundary
      · rw [h₁, h₂]
        simp only [← List.map_reverse, tryEach_map]
        exact .tryEach fun r hr => hfollow r.1 r.2 (hreps r (List.mem_reverse.1 hr))

/-- From a boundary, two runs from captures that agree both fail, or both match up to the same
offset and override what they began with by the same spans. -/
theorem matchPieces_agree (hp : p ∈ s.starts) (h : AgreeFor s pieces t₁ t₂) :
    (matchPieces s pieces p t₁ = .failed ∧ matchPieces s pieces p t₂ = .failed) ∨
      ∃ e w u₁ u₂, (∀ g, w.span? g ≠ none → g ∈ numbers pieces) ∧
        (matchPieces s pieces p t₁ = .matched e u₁ ∧ u₁.Overrides t₁ w) ∧
        (matchPieces s pieces p t₂ = .matched e u₂ ∧ u₂.Overrides t₂ w) := by
  have hon : matchPieces s pieces p t₁ ≠ .offBoundary := matchPieces_ne_offBoundary hp
  have hsame := matchPieces_sameFrom (p := p) h
  generalize matchPieces s pieces p t₁ = o₁ at hon hsame ⊢
  generalize matchPieces s pieces p t₂ = o₂ at hsame ⊢
  cases hsame with
  | offBoundary => exact absurd rfl hon
  | failed => exact .inl ⟨rfl, rfl⟩
  | @matched stop writes hw =>
    refine .inr ⟨stop, Captures.empty.recordAll writes, _, _, ?_,
      ⟨rfl, overrides_recordAll t₁ writes⟩, rfl, overrides_recordAll t₂ writes⟩
    intro g hg
    by_cases hmem : g ∈ numbers pieces
    · exact hmem
    · have hne : ∀ w ∈ writes, w.1 ≠ g := fun w hw' hwg => hmem (hwg ▸ hw w hw')
      rw [span?_recordAll_of_forall_ne hne, span?_empty] at hg
      exact absurd rfl hg

/-- Without back-references, the end and the spans that a match records are the same for all
captures. -/
theorem matchPieces_free (hp : p ∈ s.starts) (hfree : ∀ n q, ¬ Occurs (.backref n q) pieces) :
    (∀ t, matchPieces s pieces p t = .failed) ∨
      ∃ e w, (∀ g, w.span? g ≠ none → g ∈ numbers pieces) ∧
        ∀ t, ∃ u, matchPieces s pieces p t = .matched e u ∧ u.Overrides t w := by
  -- any captures agree with none at all, so the run without captures gives the spans
  have hagree : ∀ t, AgreeFor s pieces .empty t := fun t n q hn => absurd hn (hfree n q)
  rcases matchPieces_agree hp (hagree .empty) with ⟨hfail, -⟩ | ⟨e, w, u, -, -, ⟨hu, -⟩, -⟩
  · left
    intro t
    rcases matchPieces_agree hp (hagree t) with ⟨-, ht⟩ | ⟨_, _, _, _, -, ⟨hmatch, -⟩, -⟩
    · exact ht
    · rw [hfail] at hmatch
      cases hmatch
  · have hrun : ∀ t, (∀ g, u.span? g ≠ none → g ∈ numbers pieces) ∧
        ∃ v, matchPieces s pieces p t = .matched e v ∧ v.Overrides t u := by
      intro t
      rcases matchPieces_agree hp (hagree t) with
        ⟨hfail, -⟩ | ⟨e', w', u', v, hgroups, ⟨hu', hover⟩, hv, hover'⟩
      · rw [hfail] at hu
        cases hu
      · rw [hu] at hu'
        cases hu'
        have hw : ∀ g, u.span? g = w'.span? g := by
          intro g
          rw [hover g, span?_empty, Option.or_none]
        refine ⟨fun g hg => hgroups g (by rw [← hw]; exact hg), v, hv, ?_⟩
        intro g
        rw [hw]
        exact hover' g
    exact .inr ⟨e, u, (hrun .empty).1, fun t => (hrun t).2⟩

/-- A search in a session is an attempt on the captures of the session. -/
theorem Session.step_find {session : Session} {name line : String} {start : Nat}
    {stop : Option Nat} (h : Session.named name session.programs = .ok pieces)
    (hrun : (attempt (.ofString line) pieces start).run session.captures = .ok (stop, t)) :
    session.step (.find name line start) =
      .ok ({ session with captures := t },
        .found stop (t.report (.ofString line) session.highest)) := by
  simp only [Session.step, h, bind, Except.bind, hrun]

/-- From a boundary, two attempts from captures that agree both leave them as they were, or both
match up to the same offset and override what they began with by the same spans. -/
theorem attempt_agree (hp : p ∈ s.starts) (h : AgreeFor s pieces t₁ t₂) :
    ((attempt s pieces p).run t₁ = .ok (none, t₁) ∧ (attempt s pieces p).run t₂ = .ok (none, t₂)) ∨
      ∃ e w u₁ u₂, (∀ g, w.span? g ≠ none → g ∈ numbers pieces) ∧
        ((attempt s pieces p).run t₁ = .ok (some e, u₁) ∧ u₁.Overrides t₁ w) ∧
        ((attempt s pieces p).run t₂ = .ok (some e, u₂) ∧ u₂.Overrides t₂ w) := by
  rw [run_attempt, run_attempt]
  rcases matchPieces_agree hp h with
    ⟨h₁, h₂⟩ | ⟨e, w, u₁, u₂, hgroups, ⟨h₁, hover₁⟩, h₂, hover₂⟩
  · rw [h₁, h₂]
    exact .inl ⟨rfl, rfl⟩
  · rw [h₁, h₂]
    exact .inr ⟨e, w, u₁, u₂, hgroups, ⟨rfl, hover₁⟩, rfl, hover₂⟩

/-- **Earlier captures matter only through back-references, and a failed attempt leaves no trace.**

* An attempt that finds no match leaves the captures as they were, from any offset. What it finds
  and leaves otherwise is what the match of the same pieces gives.
* Take two captures that show the same texts to the back-references of some pieces. From a boundary
  both attempts fail and leave their captures as they were, or both match up to the same offset and
  override what they began with by the same spans, of groups of these pieces only.
* Without back-references the offset and the spans are the same for all captures.
* In a session a search that fails leaves everything as it was, and one that finds something changes
  nothing but the captures, by these spans. -/
theorem captures_noninterference :
    (∀ (s : Subject) (pieces : List Piece) (p : Nat) (t u : Captures),
        (attempt s pieces p).run t = .ok (none, u) → u = t) ∧
      (∀ (s : Subject) (pieces : List Piece) (p : Nat) (t : Captures),
        (attempt s pieces p).run t =
          match matchPieces s pieces p t with
          | .offBoundary => .error ⟨⟩
          | .failed => .ok (none, t)
          | .matched stop u => .ok (some stop, u)) ∧
      (∀ (s : Subject) (pieces : List Piece) (p : Nat) (t₁ t₂ : Captures), p ∈ s.starts →
        AgreeFor s pieces t₁ t₂ →
        ((attempt s pieces p).run t₁ = .ok (none, t₁) ∧
          (attempt s pieces p).run t₂ = .ok (none, t₂)) ∨
        ∃ e w u₁ u₂, (∀ g, w.span? g ≠ none → g ∈ numbers pieces) ∧
          ((attempt s pieces p).run t₁ = .ok (some e, u₁) ∧ u₁.Overrides t₁ w) ∧
          ((attempt s pieces p).run t₂ = .ok (some e, u₂) ∧ u₂.Overrides t₂ w)) ∧
      (∀ (s : Subject) (pieces : List Piece) (p : Nat), p ∈ s.starts →
        (∀ n q, ¬ Occurs (.backref n q) pieces) →
        (∀ t, (attempt s pieces p).run t = .ok (none, t)) ∨
        ∃ e w, (∀ g, w.span? g ≠ none → g ∈ numbers pieces) ∧
          ∀ t, ∃ u, (attempt s pieces p).run t = .ok (some e, u) ∧ u.Overrides t w) ∧
      ∀ (a b : Session) (name line : String) (start : Nat) (pieces : List Piece),
        Session.named name a.programs = .ok pieces → Session.named name b.programs = .ok pieces →
        start ∈ (Subject.ofString line).starts →
        AgreeFor (.ofString line) pieces a.captures b.captures →
        (∃ shown₁ shown₂, a.step (.find name line start) = .ok (a, .found none shown₁) ∧
          b.step (.find name line start) = .ok (b, .found none shown₂)) ∨
        ∃ e w u₁ u₂ shown₁ shown₂, (∀ g, w.span? g ≠ none → g ∈ numbers pieces) ∧
          (a.step (.find name line start) =
            .ok ({ a with captures := u₁ }, .found (some e) shown₁) ∧ u₁.Overrides a.captures w) ∧
          (b.step (.find name line start) =
            .ok ({ b with captures := u₂ }, .found (some e) shown₂) ∧ u₂.Overrides b.captures w) := by
  refine ⟨?_, run_attempt, ?_, ?_, ?_⟩
  · intro s pieces p t u h
    exact attempt_atomic s pieces p t u h
  · intro s pieces p t₁ t₂ hp h
    exact attempt_agree hp h
  · intro s pieces p hp hfree
    simp only [run_attempt]
    rcases matchPieces_free hp hfree with hfail | ⟨e, w, hgroups, hrun⟩
    · exact .inl fun t => by rw [hfail]
    · refine .inr ⟨e, w, hgroups, fun t => ?_⟩
      obtain ⟨u, hu, hover⟩ := hrun t
      exact ⟨u, by rw [hu], hover⟩
  · intro a b name line start pieces ha hb hstart h
    rcases attempt_agree hstart h with
      ⟨h₁, h₂⟩ | ⟨e, w, u₁, u₂, hgroups, ⟨h₁, hover₁⟩, h₂, hover₂⟩
    · exact .inl ⟨_, _, Session.step_find ha h₁, Session.step_find hb h₂⟩
    · exact .inr ⟨e, w, u₁, u₂, _, _, hgroups, ⟨Session.step_find ha h₁, hover₁⟩,
        Session.step_find hb h₂, hover₂⟩

/-- Two captures with a stale span each that show `b` to the back-reference from different places.
An attempt that captures every character of the line and then finds no `x` leaves the first of them
as they were. -/
theorem captures_noninterference_stale :
    let s := Subject.ofString "ébéb"
    let t₁ : Captures := ⟨[some ⟨9, 1⟩, some ⟨2, 3⟩]⟩
    let t₂ : Captures := ⟨[none, some ⟨5, 6⟩, some ⟨0, 2⟩]⟩
    let repeated : Piece := .group (some 1) [[.atom .any .one]] .plus
    let pieces : List Piece := [.group (some 1) [[.atom .any .one]] .one, .backref 2 .one]
    let a : Session := ⟨t₁, 2, 2, [("copy", [.backref 2 .one])], []⟩
    let b : Session := ⟨t₂, 0, 3, [("copy", [.backref 2 .one])], []⟩
    (∃ u, (attempt s [repeated, .atom (.literal 'x') .one] 0).run t₁ = .ok (none, u) ∧ u = t₁) ∧
      (attempt s [repeated] 0).run t₁ = .ok (some 6, ⟨[some ⟨0, 6⟩, some ⟨2, 3⟩]⟩) ∧
      0 ∈ s.starts ∧ AgreeFor s pieces t₁ t₂ ∧
      (∃ e w u₁ u₂, (∀ g, w.span? g ≠ none → g ∈ numbers pieces) ∧
        ((attempt s pieces 0).run t₁ = .ok (some e, u₁) ∧ u₁.Overrides t₁ w) ∧
        ((attempt s pieces 0).run t₂ = .ok (some e, u₂) ∧ u₂.Overrides t₂ w)) ∧
      (∀ n q, ¬ Occurs (.backref n q) [repeated]) ∧
      (∃ e w, (∀ g, w.span? g ≠ none → g ∈ numbers [repeated]) ∧
        ∀ t, ∃ u, (attempt s [repeated] 0).run t = .ok (some e, u) ∧ u.Overrides t w) ∧
      Session.named "copy" a.programs = .ok [.backref 2 .one] ∧
      Session.named "copy" b.programs = .ok [.backref 2 .one] ∧
      2 ∈ s.starts ∧ AgreeFor s [.backref 2 .one] a.captures b.captures ∧
      ∃ e w u₁ u₂ shown₁ shown₂, (∀ g, w.span? g ≠ none → g ∈ numbers [.backref 2 .one]) ∧
        (a.step (.find "copy" "ébéb" 2) =
          .ok ({ a with captures := u₁ }, .found (some e) shown₁) ∧ u₁.Overrides a.captures w) ∧
        (b.step (.find "copy" "ébéb" 2) =
          .ok ({ b with captures := u₂ }, .found (some e) shown₂) ∧ u₂.Overrides b.captures w) := by
  intro s t₁ t₂ repeated pieces a b
  obtain ⟨hatomic, hmatch, hagree₂, hfree₂, hsessions⟩ := captures_noninterference
  have hfails : (attempt s [repeated, .atom (.literal 'x') .one] 0).run t₁ = .ok (none, t₁) := rfl
  have hrepeats : matchPieces s [repeated] 0 t₁ = .matched 6 ⟨[some ⟨0, 6⟩, some ⟨2, 3⟩]⟩ := by
    decide
  have hp : 0 ∈ s.starts := Subject.zero_mem_starts
  have hp' : 2 ∈ s.starts := by decide
  have htext : t₁.text? s 2 = t₂.text? s 2 := by decide
  have hagree : AgreeFor s pieces t₁ t₂ := by
    intro n q hn
    obtain ⟨rfl, -⟩ : n = 2 ∧ q = .one := by simpa [pieces] using hn
    exact htext
  have hfree : ∀ n q, ¬ Occurs (.backref n q) [repeated] := by simp [repeated]
  have hnamed : Session.named "copy" a.programs = .ok [.backref 2 .one] := rfl
  have hnamed' : Session.named "copy" b.programs = .ok [.backref 2 .one] := rfl
  have hagree' : AgreeFor s [.backref 2 .one] a.captures b.captures := hagree.tail
  refine ⟨⟨t₁, hfails, hatomic _ _ _ _ _ hfails⟩, ?_, hp, hagree, ?_, hfree, ?_, hnamed, hnamed',
    hp', hagree', ?_⟩
  · rw [hmatch, hrepeats]
  · refine (hagree₂ s pieces 0 t₁ t₂ hp hagree).resolve_left fun h => ?_
    have hfound : (attempt s pieces 0).run t₁ = .ok (some 3, ⟨[some ⟨0, 2⟩, some ⟨2, 3⟩]⟩) := rfl
    rw [hfound] at h
    cases h.1
  · refine (hfree₂ s [repeated] 0 hp hfree).resolve_left fun h => ?_
    have hnone := h t₁
    rw [hmatch, hrepeats] at hnone
    cases hnone
  · refine (hsessions a b "copy" "ébéb" 2 _ hnamed hnamed' hp' hagree').resolve_left ?_
    rintro ⟨shown₁, -, h, -⟩
    have hfound : (attempt s [.backref 2 .one] 2).run a.captures = .ok (some 3, t₁) := rfl
    rw [Session.step_find hnamed hfound] at h
    cases h

end LineSearch
