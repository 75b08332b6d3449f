import LineSearch.Proofs.Members
import LineSearch.Proofs.Noninterference

/-!
# A group in place of an atom

A group whose alternatives are single atoms stands for one character, as an atom does. If together
they accept what one atom accepts, the group offers the same ends as this atom in the same order,
whatever the quantifier. It also notes a span, which what follows cannot see unless it refers back
to the group.

* `Outcome.Alike`: outcomes that end alike, with captures in a given relation.
* `Captures.AgreeBut`: captures that agree on every group but one.
* `matchPieces_agreeBut`: a run takes no notice of a span that it does not refer back to.
* `matchAlternatives_atoms`, `repetitions_atoms`: the group offers what the atom does.
* `matchPieces_atomGroup`: before the same continuation, the group matches like the atom.
-/

namespace LineSearch

variable {s : Subject} {x : Atom} {xs : List Atom} {pieces rest : List Piece} {ahead : List Char}
  {R : Captures → Captures → Prop} {g p : Nat} {t t₁ t₂ : Captures}

/-- Two outcomes that end alike. Where both match, they end at the same offset and their captures
are in the relation `R`. -/
inductive Outcome.Alike (R : Captures → Captures → Prop) : Outcome → Outcome → Prop
  | offBoundary : Alike R .offBoundary .offBoundary
  | failed : Alike R .failed .failed
  | matched {stop : Nat} {t₁ t₂ : Captures} (h : R t₁ t₂) :
    Alike R (.matched stop t₁) (.matched stop t₂)

namespace Outcome.Alike

variable {o₁ o₂ : Outcome}

theorem refl (hR : ∀ t, R t t) (o : Outcome) : Alike R o o := by
  cases o with
  | offBoundary => exact .offBoundary
  | failed => exact .failed
  | matched stop t => exact .matched (hR t)

theorem orElse {next₁ next₂ : Unit → Outcome} (h : Alike R o₁ o₂)
    (hnext : Alike R (next₁ ()) (next₂ ())) : Alike R (o₁.orElse next₁) (o₂.orElse next₂) := by
  cases h with
  | offBoundary => exact .offBoundary
  | failed => exact hnext
  | matched h => exact .matched h

theorem tryEach_forall₂ {α β : Type} {next₁ : α → Outcome} {next₂ : β → Outcome} {as : List α}
    {bs : List β} (h : List.Forall₂ (fun a b => Alike R (next₁ a) (next₂ b)) as bs) :
    Alike R (LineSearch.tryEach next₁ as) (LineSearch.tryEach next₂ bs) := by
  induction h with
  | nil => exact .failed
  | cons hhead _ ih => exact hhead.orElse ih

theorem tryEach {α : Type} {next₁ next₂ : α → Outcome} {as : List α}
    (h : ∀ a ∈ as, Alike R (next₁ a) (next₂ a)) :
    Alike R (LineSearch.tryEach next₁ as) (LineSearch.tryEach next₂ as) :=
  tryEach_forall₂ (List.forall₂_same.2 h)

end Outcome.Alike

theorem Outcome.orElse_self (o : Outcome) : (o.orElse fun _ => o) = o := by
  cases o <;> rfl

theorem tryEach_append {α : Type} (next : α → Outcome) (l r : List α) :
    tryEach next (l ++ r) = (tryEach next l).orElse fun _ => tryEach next r := by
  induction l with
  | nil => rfl
  | cons a l ih =>
    rw [List.cons_append, tryEach_cons, tryEach_cons, ih]
    cases next a <;> rfl

namespace Captures

/-- Two captures hold the same spans for all groups but one. -/
def AgreeBut (g : Nat) (t₁ t₂ : Captures) : Prop :=
  ∀ h, h ≠ g → t₁.span? h = t₂.span? h

theorem AgreeBut.refl (g : Nat) (t : Captures) : AgreeBut g t t := by
  intro h _
  rfl

theorem agreeBut_note (t : Captures) (g : GroupNumber) (span : Span) :
    AgreeBut g t (t.note (some g) span) := by
  intro h hne
  rw [note, span?_record, if_neg hne]

theorem AgreeBut.recordAll (h : AgreeBut g t₁ t₂) (writes : List (GroupNumber × Span)) :
    AgreeBut g (t₁.recordAll writes) (t₂.recordAll writes) := by
  intro n hn
  have h₁ := overrides_recordAll t₁ writes n
  have h₂ := overrides_recordAll t₂ writes n
  rw [h₁, h₂, h n hn]

/-- Pieces that do not refer back to a group see the same texts whatever its span is. -/
theorem AgreeBut.agreeFor (h : AgreeBut g t₁ t₂) (href : ∀ q, ¬ Occurs (.backref g q) pieces) :
    AgreeFor s pieces t₁ t₂ := by
  intro n q hn
  have hne : n ≠ g := by
    intro hng
    rw [hng] at hn
    exact href q hn
  unfold text?
  rw [h n hne]

end Captures

open Captures Outcome

/-- **A span that nothing refers back to** makes no difference to a run, and the run makes none to
it. -/
theorem matchPieces_agreeBut (h : AgreeBut g t₁ t₂) (href : ∀ q, ¬ Occurs (.backref g q) pieces) :
    Alike (AgreeBut g) (matchPieces s pieces p t₁) (matchPieces s pieces p t₂) := by
  have hsame := matchPieces_sameFrom (s := s) (p := p) (h.agreeFor href)
  generalize matchPieces s pieces p t₁ = o₁ at hsame ⊢
  generalize matchPieces s pieces p t₂ = o₂ at hsame ⊢
  cases hsame with
  | offBoundary => exact .offBoundary
  | failed => exact .failed
  | matched hw => exact .matched (h.recordAll _)

/-- The alternatives of a group that are one atom each. -/
def Atom.alternatives (xs : List Atom) : List (List Piece) :=
  xs.map fun y => [.atom y .one]

/-- Some atoms together accept what one atom accepts. -/
def Atom.Covered (x : Atom) (xs : List Atom) : Prop :=
  ∀ c, x.accepts c = true ↔ ∃ y ∈ xs, y.accepts c = true

theorem Atom.stops_one_cons (x : Atom) (p : Nat) (c : Char) (cs : List Char) :
    x.stops .one p (c :: cs) = if x.accepts c = true then [p + c.utf8Size] else [] := by
  by_cases hc : x.accepts c = true <;> simp [stops, Text.ends, hc]

/-- Alternatives that are one atom each match if one of them accepts the character ahead. However
many of them do, they all stop after it. -/
theorem matchAlternatives_atoms_cons {c : Char} (h : s.ahead p = some (c :: ahead))
    (xs : List Atom) (next : Nat → Captures → Outcome) :
    matchAlternatives s (Atom.alternatives xs) p t next =
      if ∃ y ∈ xs, y.accepts c = true then next (p + c.utf8Size) t else .failed := by
  induction xs with
  | nil => simp [Atom.alternatives, matchAlternatives]
  | cons y xs ih =>
    have hone : matchPieces s [.atom y .one] p t =
        if y.accepts c = true then .matched (p + c.utf8Size) t else .failed := by
      rw [matchPieces, matchPiece, matchAtom, h]
      simp only [Atom.stops_one_cons]
      by_cases hc : y.accepts c = true
      · rw [if_pos hc, if_pos hc]
        rfl
      · rw [if_neg hc, if_neg hc]
        rfl
    rw [Atom.alternatives, List.map_cons, matchAlternatives, hone, ← Atom.alternatives, ih]
    by_cases hc : y.accepts c = true
    · -- an alternative after this one would only try the same end again
      have hhead : ∃ z ∈ y :: xs, z.accepts c = true := ⟨y, List.mem_cons_self, hc⟩
      rw [if_pos hc, if_pos hhead, matched_andThen]
      by_cases hxs : ∃ z ∈ xs, z.accepts c = true
      · rw [if_pos hxs, orElse_self]
      · rw [if_neg hxs]
        cases next (p + c.utf8Size) t <;> rfl
    · simp [hc]

/-- **A group of atoms offers the stops of the atom** that it stands for. -/
theorem matchAlternatives_atoms (hx : x.Covered xs) (h : s.ahead p = some ahead)
    (next : Nat → Captures → Outcome) :
    matchAlternatives s (Atom.alternatives xs) p t next =
      tryEach (next · t) (x.stops .one p ahead) := by
  cases ahead with
  | nil =>
    have hnil : ∀ y : Atom, matchPieces s [.atom y .one] p t = .failed := by
      intro y
      rw [matchPieces, matchPiece, matchAtom, h]
      rfl
    show matchAlternatives s (Atom.alternatives xs) p t next = .failed
    clear hx
    induction xs with
    | nil => rfl
    | cons y xs ih =>
      rw [Atom.alternatives, List.map_cons, matchAlternatives, hnil, ← Atom.alternatives, ih]
      rfl
  | cons c ahead =>
    rw [matchAlternatives_atoms_cons h, Atom.stops_one_cons]
    by_cases hc : x.accepts c = true
    · rw [if_pos ((hx c).1 hc), if_pos hc, tryEach_cons, tryEach_nil]
      cases next (p + c.utf8Size) t <;> rfl
    · rw [if_neg fun hex => hc ((hx c).2 hex), if_neg hc, tryEach_nil]

theorem Text.length_le_size (cs : List Char) : cs.length ≤ size cs := by
  induction cs with
  | nil => exact Nat.le_refl _
  | cons c cs ih =>
    have hpos := c.utf8Size_pos
    rw [List.length_cons, size_cons]
    omega

/-- The repetitions of a group of atoms end where the characters do that the atom accepts, one
after another, and capture nothing. -/
theorem chain_atoms (hx : x.Covered xs) {fuel : Nat} (h : s.ahead p = some ahead)
    (hfuel : ahead.length < fuel) :
    chain (fun p => matchAlternatives s (Atom.alternatives xs) p t (advance p)) fuel p =
      some ((Text.ends p (ahead.takeWhile x.accepts)).map (·, t)) := by
  induction ahead generalizing p fuel with
  | nil =>
    obtain ⟨fuel, rfl⟩ : ∃ k, fuel = k + 1 := ⟨fuel - 1, by omega⟩
    rw [chain, matchAlternatives_atoms hx h]
    rfl
  | cons c ahead ih =>
    obtain ⟨fuel, rfl⟩ : ∃ k, fuel = k + 1 := ⟨fuel - 1, by omega⟩
    rw [chain, matchAlternatives_atoms hx h, Atom.stops_one_cons]
    by_cases hc : x.accepts c = true
    · have hpos := c.utf8Size_pos
      have hmove : advance p (p + c.utf8Size) t = .matched (p + c.utf8Size) t := by
        unfold advance
        rw [if_pos (by omega)]
      have hlen : ahead.length < fuel := by
        rw [List.length_cons] at hfuel
        omega
      have hrest := ih (Subject.ahead_add_utf8Size h) hlen
      rw [if_pos hc, tryEach_cons, hmove, matched_orElse, List.takeWhile_cons_of_pos hc, Text.ends,
        List.map_cons]
      simp only [hrest, Option.map_some]
    · rw [if_neg hc, List.takeWhile_cons_of_neg hc]
      rfl

/-- **The repetitions of a group of atoms** are the ends in the longest run of the atom. -/
theorem repetitions_atoms (hx : x.Covered xs) (h : s.ahead p = some ahead) (t : Captures) :
    repetitions s (Atom.alternatives xs) p t =
      some ((Text.ends p (ahead.takeWhile x.accepts)).map (·, t)) := by
  have hsize : s.size = p + Text.size ahead := by
    rw [Subject.ahead_eq, Text.suffixAt_eq_some_iff] at h
    obtain ⟨l, htext, hl⟩ := h
    rw [Subject.size_eq, htext, Text.size_append, hl]
  have hlen := Text.length_le_size ahead
  exact chain_atoms hx h (by omega)

/-- **A group of atoms runs like the atom,** up to the span of the group. -/
theorem matchPieces_group_alike {g : GroupNumber} (hx : x.Covered xs)
    (href : ∀ q, ¬ Occurs (.backref g q) rest) (h : s.ahead p = some ahead) (q : Quantifier)
    (t : Captures) :
    Alike (AgreeBut g) (matchPieces s (.atom x q :: rest) p t)
      (matchPieces s (.group (some g) (Atom.alternatives xs) q :: rest) p t) := by
  -- what follows goes on from the same end, with or without the span of the group
  have hfollow : ∀ m, Alike (AgreeBut g) (matchPieces s rest m t)
      (matchPieces s rest m (t.note (some g) ⟨p, m⟩)) :=
    fun m => matchPieces_agreeBut (agreeBut_note t g ⟨p, m⟩) href
  rw [matchPieces, matchPieces, matchPiece, matchAtom, h]
  cases q with
  | one =>
    rw [matchPiece, matchAlternatives_atoms hx h]
    exact .tryEach fun m _ => hfollow m
  | optional =>
    have hstops : x.stops .optional p ahead = x.stops .one p ahead ++ [p] := rfl
    have hskip : Alike (AgreeBut g) (matchPieces s rest p t) (matchPieces s rest p t) :=
      .refl (AgreeBut.refl g) _
    have hlast : tryEach (matchPieces s rest · t) [p] = matchPieces s rest p t := by
      rw [tryEach_cons, tryEach_nil]
      cases matchPieces s rest p t <;> rfl
    rw [matchPiece, matchAlternatives_atoms hx h]
    simp only [hstops, tryEach_append, hlast]
    exact (Alike.tryEach fun m _ => hfollow m).orElse hskip
  | plus =>
    have hstops : x.stops .plus p ahead = (Text.ends p (ahead.takeWhile x.accepts)).reverse := rfl
    rw [matchPiece_group_plus, repetitions_atoms hx h]
    simp only [hstops, ← List.map_reverse, tryEach_map]
    exact .tryEach fun m _ => hfollow m

/-- **A group of atoms matches like an atom.** Take atoms that together accept the characters that
one atom accepts, and pieces to follow that do not refer back to the group. From a boundary, with
any quantifier and any captures, the atom and the group of these atoms both fail before these
pieces, or both match up to the same offset and leave the same spans for all other groups. -/
theorem matchPieces_atomGroup (s : Subject) (x : Atom) (q : Quantifier) (xs : List Atom)
    (rest : List Piece) (g : GroupNumber) (p : Nat) (t : Captures)
    (hx : ∀ c, x.accepts c = true ↔ ∃ y ∈ xs, y.accepts c = true)
    (href : ∀ q, ¬ Occurs (.backref g q) rest) (hp : p ∈ s.starts) :
    (matchPieces s (.atom x q :: rest) p t = .failed ∧
        matchPieces s (.group (some g) (xs.map fun y => [.atom y .one]) q :: rest) p t = .failed) ∨
      ∃ e u v, matchPieces s (.atom x q :: rest) p t = .matched e u ∧
        matchPieces s (.group (some g) (xs.map fun y => [.atom y .one]) q :: rest) p t =
          .matched e v ∧
        ∀ h : Nat, h ≠ g → u.span? h = v.span? h := by
  obtain ⟨ahead, hahead⟩ := Subject.mem_starts_iff.1 hp
  have hon : matchPieces s (.atom x q :: rest) p t ≠ .offBoundary := matchPieces_ne_offBoundary hp
  have halike := matchPieces_group_alike hx href hahead q t
  rw [Atom.alternatives] at halike
  generalize matchPieces s (.atom x q :: rest) p t = o₁ at hon halike ⊢
  generalize matchPieces s (.group (some g) _ q :: rest) p t = o₂ at halike ⊢
  cases halike with
  | offBoundary => exact absurd rfl hon
  | failed => exact .inl ⟨rfl, rfl⟩
  | matched h => exact .inr ⟨_, _, _, rfl, rfl, h⟩

/-- A class against its members, one of them twice. The run gives back two letters, for a group and
a reference to that group. -/
theorem matchPieces_atomGroup_class :
    let x : Atom := .set (CharSet.ofContent (symbols "aé".toList))
    let xs : List Atom := [.literal 'a', .literal 'a', .literal 'é']
    let rest : List Piece := [.group (some 2) [[.atom (.literal 'a') .one]] .one, .backref 2 .one]
    (∀ c, x.accepts c = true ↔ ∃ y ∈ xs, y.accepts c = true) ∧
      (∀ q, ¬ Occurs (.backref 1 q) rest) ∧ 0 ∈ (Subject.ofString "éaaa").starts ∧
      ∃ e u v, matchPieces (.ofString "éaaa") (.atom x .plus :: rest) 0 .empty = .matched e u ∧
        matchPieces (.ofString "éaaa")
            (.group (some 1) (xs.map fun y => [.atom y .one]) .plus :: rest) 0 .empty =
          .matched e v ∧
        ∀ h, h ≠ 1 → u.span? h = v.span? h := by
  intro x xs rest
  have hx : ∀ c, x.accepts c = true ↔ ∃ y ∈ xs, y.accepts c = true := by
    intro c
    have hclass : x.accepts c = true ↔ c ∈ ['a', 'é'] := by
      show (CharSet.ofRanges false (['a', 'é'].map fun d => ⟨d, d⟩)).accepts c = true ↔ _
      rw [CharSet.accepts_ofRanges, Bool.bne_false, CharSet.any_contains_singles]
    rw [hclass]
    simp [xs, Atom.accepts]
  have href : ∀ q, ¬ Occurs (.backref 1 q) rest := by simp [rest]
  have hp : 0 ∈ (Subject.ofString "éaaa").starts := Subject.zero_mem_starts
  refine ⟨hx, href, hp, ?_⟩
  refine (matchPieces_atomGroup _ x .plus xs rest 1 0 .empty hx href hp).resolve_left fun h => ?_
  exact absurd h.1 (by decide +kernel)

end LineSearch
