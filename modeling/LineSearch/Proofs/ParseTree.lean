import Mathlib.Data.List.Nodup
import Mathlib.Data.List.Pairwise
import LineSearch.Proofs.Soundness

/-!
# Captures describe one parse tree

The groups of a pattern with distinct numbers capture what one derivation gives them, whatever the
search tried before it.

* `Arranged`: the spans in one sequence nest as its groups do, only one alternative of a group has
  any, and they follow each other as the pieces do.
* `ParseTree`: this holds at every depth, and a group that has to occur has a span.
* `Derives.at_group`: how a derivation goes through a group of the sequence. The captures at its
  end still hold what the alternative taken there captured.
* `Derives.at_sequence`: an alternative at any depth has no spans, or the captures hold what one
  derivation of it captured.
* `Derives.arranged`: a derivation arranges the spans of its own sequence.
* `parseTree_of_matched`: the captures of a match are a parse tree.
-/

namespace LineSearch

/-- The spans of the groups in a sequence lie as the pieces of the sequence do. -/
structure Arranged (u : Captures) (pieces : List Piece) : Prop where
  /-- A group has a span around every span that a group inside it has. -/
  nested : ∀ (g : GroupNumber) alternatives q, .group (some g) alternatives q ∈ pieces →
    ∀ part ∈ alternatives, ∀ h ∈ numbers part, ∀ σ, u.span? h = some σ →
      ∃ ρ, u.span? g = some ρ ∧ ρ.start ≤ σ.start ∧ σ.start ≤ σ.stop ∧ σ.stop ≤ ρ.stop
  /-- No two alternatives of a group both have spans inside. -/
  exclusive : ∀ number alternatives q, .group number alternatives q ∈ pieces →
    alternatives.Pairwise fun a b =>
      ∀ g ∈ numbers a, ∀ h ∈ numbers b, u.span? g = none ∨ u.span? h = none
  /-- The spans in a piece end before those in a later piece begin. -/
  ordered : pieces.Pairwise fun a b =>
    ∀ g ∈ a.numbers, ∀ h ∈ b.numbers, ∀ ρ σ, u.span? g = some ρ → u.span? h = some σ →
      ρ.stop ≤ σ.start

/-- The captures `u` are those of one parse of some pieces. -/
structure ParseTree (u : Captures) (pieces : List Piece) : Prop where
  /-- The spans are arranged in the whole sequence and in every alternative at any depth. -/
  arranged : ∀ seq, Sequence pieces seq → Arranged u seq
  /-- A group of the whole sequence that has to occur has a span, and not an empty one if it has
  to move on. -/
  present : ∀ (g : GroupNumber) alternatives q, .group (some g) alternatives q ∈ pieces →
    q ≠ .optional → ∃ ρ, u.span? g = some ρ ∧ (q = .plus → ρ.start < ρ.stop)

variable {s : Subject} {pieces seq part part' : List Piece} {alternatives : List (List Piece)}
  {number : Option GroupNumber} {q : Quantifier} {p e g : Nat} {t u : Captures} {σ : Span}

namespace Derives

theorem span?_eq (h : Derives s pieces p t e u) (hg : g ∉ numbers pieces) :
    u.span? g = t.span? g :=
  (h.span?_cases g).resolve_right fun hr => hg hr.1

theorem span?_between (h : Derives s pieces p t e u) (ht : t.span? g = none)
    (hu : u.span? g = some σ) :
    g ∈ numbers pieces ∧ p ≤ σ.start ∧ σ.start ≤ σ.stop ∧ σ.stop ≤ e := by
  rcases h.span?_cases g with h' | ⟨hg, ρ, hρ, hle⟩
  · rw [h', ht] at hu; cases hu
  · rw [hρ] at hu
    cases hu
    exact ⟨hg, hle⟩

end Derives

/-- The numbers of a group whose numbers are distinct: its own is not among those inside. -/
theorem numbers_group_nodup (hn : (Piece.group number alternatives q).numbers.Nodup) :
    (∀ part ∈ alternatives, ∀ g ∈ numbers part, number.map (·.val) ≠ some g) ∧
      (∀ part ∈ alternatives, (numbers part).Nodup) ∧
      alternatives.Pairwise (fun a b => List.Disjoint (numbers a) (numbers b)) := by
  rw [numbers_group, List.nodup_append] at hn
  obtain ⟨-, halt, hdis⟩ := hn
  obtain ⟨hnd, hpair⟩ := List.nodup_flatMap.1 halt
  refine ⟨?_, hnd, hpair⟩
  intro part ha g hg hnum
  exact hdis g (by simp [hnum]) g (List.mem_flatMap.2 ⟨part, ha, hg⟩) rfl

theorem mem_numbers_of_mem {piece : Piece} (hmem : piece ∈ pieces) (hg : g ∈ piece.numbers) :
    g ∈ numbers pieces := by
  rw [numbers_eq_flatMap]
  exact List.mem_flatMap.2 ⟨piece, hmem, hg⟩

theorem mem_numbers_group (ha : part ∈ alternatives) (hg : g ∈ numbers part) :
    g ∈ (Piece.group number alternatives q).numbers := by
  rw [numbers_group]
  exact List.mem_append_right _ (List.mem_flatMap.2 ⟨part, ha, hg⟩)

theorem nodup_of_mem {piece : Piece} (hn : (numbers pieces).Nodup) (hmem : piece ∈ pieces) :
    piece.numbers.Nodup := by
  rw [numbers_eq_flatMap] at hn
  exact (List.nodup_flatMap.1 hn).1 piece hmem

/-- The numbers in two different alternatives are different. -/
theorem eq_of_mem_numbers
    (hdis : alternatives.Pairwise fun a b => List.Disjoint (numbers a) (numbers b))
    (ha : part ∈ alternatives) (ha' : part' ∈ alternatives) (hg : g ∈ numbers part)
    (hg' : g ∈ numbers part') : part = part' := by
  have : Std.Symm fun a b => List.Disjoint (numbers a) (numbers b) :=
    ⟨fun _ _ h _ ha hb => h hb ha⟩
  by_contra hne
  exact hdis.forall ha ha' hne hg hg'

/-- A sequence without spans is arranged. -/
theorem arranged_of_none (h : ∀ g ∈ numbers pieces, u.span? g = none) : Arranged u pieces := by
  refine ⟨?_, ?_, ?_⟩
  · intro g alternatives q hmem part ha k hk σ hσ
    rw [h k (mem_numbers_of_mem hmem (mem_numbers_group ha hk))] at hσ
    cases hσ
  · intro number alternatives q hmem
    apply List.pairwise_of_forall_mem_list
    intro a ha b _ g hg k _
    exact .inl (h g (mem_numbers_of_mem hmem (mem_numbers_group ha hg)))
  · apply List.pairwise_of_forall_mem_list
    intro a ha b _ g hg k _ ρ σ hρ _
    rw [h g (mem_numbers_of_mem ha hg)] at hρ
    cases hρ

/-- Only the spans of the groups in the sequence count. -/
theorem Arranged.congr (h : Arranged t pieces)
    (hu : ∀ g ∈ numbers pieces, u.span? g = t.span? g) : Arranged u pieces := by
  refine ⟨?_, ?_, ?_⟩
  · intro g alternatives q hmem part ha k hk σ hσ
    rw [hu k (mem_numbers_of_mem hmem (mem_numbers_group ha hk))] at hσ
    rw [hu g (mem_numbers_of_mem hmem self_mem_numbers)]
    exact h.nested g alternatives q hmem part ha k hk σ hσ
  · intro number alternatives q hmem
    refine (h.exclusive number alternatives q hmem).imp_of_mem ?_
    intro a b ha hb hab g hg k hk
    rw [hu g (mem_numbers_of_mem hmem (mem_numbers_group ha hg)),
      hu k (mem_numbers_of_mem hmem (mem_numbers_group hb hk))]
    exact hab g hg k hk
  · refine h.ordered.imp_of_mem ?_
    intro a b ha hb hab g hg k hk ρ σ hρ hσ
    rw [hu g (mem_numbers_of_mem ha hg)] at hρ
    rw [hu k (mem_numbers_of_mem hb hk)] at hσ
    exact hab g hg k hk ρ σ hρ hσ

namespace Derives

/-- **How a derivation goes through a group of its sequence:** the group is skipped and nothing in
it has a span, or some alternative is derived. What is captured inside the group is then what this
derivation captured, and the group has a span that ends where it does. -/
theorem at_group (h : Derives s pieces p t e u) (hn : (numbers pieces).Nodup)
    (ht : ∀ g ∈ numbers pieces, t.span? g = none)
    (hmem : .group number alternatives q ∈ pieces) :
    (q = .optional ∧ ∀ part ∈ alternatives, ∀ g ∈ numbers part, u.span? g = none) ∨
      ∃ part ∈ alternatives, ∃ t' k j m v, j ≤ k ∧ (q = .plus → j < m) ∧
        Derives s part k t' m v ∧
        (∀ g : GroupNumber, number = some g → u.span? g = some ⟨j, m⟩) ∧
        ∀ part' ∈ alternatives, ∀ g ∈ numbers part',
          t'.span? g = none ∧ u.span? g = v.span? g := by
  obtain ⟨l, r, rfl⟩ := List.append_of_mem hmem
  obtain ⟨j, t', hl, hr⟩ := h.append
  obtain ⟨hnum, -, -⟩ := numbers_group_nodup (nodup_of_mem hn hmem)
  rw [numbers_append, numbers_cons, List.nodup_append, List.nodup_append] at hn
  obtain ⟨-, ⟨-, -, hgr⟩, hlg⟩ := hn
  -- neither what comes before the group nor what comes after it touches the group's numbers
  have hnl : ∀ g ∈ (Piece.group number alternatives q).numbers, g ∉ numbers l :=
    fun g hg hgl => hlg g hgl g (List.mem_append_left _ hg) rfl
  have hnr : ∀ g ∈ (Piece.group number alternatives q).numbers, g ∉ numbers r :=
    fun g hg hgr' => hgr g hg g hgr' rfl
  have ht' : ∀ g ∈ (Piece.group number alternatives q).numbers, t'.span? g = none := by
    intro g hg
    rw [hl.span?_eq (hnl g hg)]
    exact ht g (mem_numbers_of_mem hmem hg)
  rcases hr.group_cases with ⟨hq, hr⟩ | ⟨part, ha, k, m, v, hk, hplus, hd, hr⟩
  · refine .inl ⟨hq, ?_⟩
    intro part ha g hg
    have hgg : g ∈ (Piece.group number alternatives q).numbers := mem_numbers_group ha hg
    rw [hr.span?_eq (hnr g hgg), ht' g hgg]
  · refine .inr ⟨part, ha, t', k, j, m, v, hk, hplus, hd, ?_, ?_⟩
    · rintro g rfl
      rw [hr.span?_eq (hnr g self_mem_numbers), Captures.span?_note, Option.map_some, if_pos rfl]
    · intro part' ha' g hg
      have hgg : g ∈ (Piece.group number alternatives q).numbers := mem_numbers_group ha' hg
      rw [hr.span?_eq (hnr g hgg), Captures.span?_note, if_neg (hnum part' ha' g hg)]
      exact ⟨ht' g hgg, rfl⟩

/-- **How a derivation goes through an alternative at any depth:** nothing in it has a span, or
what is captured in it is what one derivation of it captured. -/
theorem at_sequence (h : Derives s pieces p t e u) (hn : (numbers pieces).Nodup)
    (ht : ∀ g ∈ numbers pieces, t.span? g = none) (hs : Sequence pieces seq) :
    (numbers seq).Nodup ∧ ((∀ g ∈ numbers seq, u.span? g = none) ∨
      ∃ j t' m v, Derives s seq j t' m v ∧
        ∀ g ∈ numbers seq, t'.span? g = none ∧ u.span? g = v.span? g) := by
  induction hs with
  | whole => exact ⟨hn, .inr ⟨p, t, e, u, h, fun g hg => ⟨ht g hg, rfl⟩⟩⟩
  | @alternative seq number alternatives q part hs hmem ha ih =>
    obtain ⟨hns, ih⟩ := ih
    obtain ⟨-, hnd, hdis⟩ := numbers_group_nodup (nodup_of_mem hns hmem)
    have hsub : ∀ g ∈ numbers part, g ∈ numbers seq :=
      fun g hg => mem_numbers_of_mem hmem (mem_numbers_group ha hg)
    refine ⟨hnd part ha, ?_⟩
    rcases ih with hnone | ⟨j, t', m, v, hd, hv⟩
    · exact .inl fun g hg => hnone g (hsub g hg)
    · rcases hd.at_group hns (fun g hg => (hv g hg).1) hmem with
        ⟨-, hskip⟩ | ⟨taken, hta, t₁, k, i, l, w, -, -, hdt, -, hw⟩
      · exact .inl fun g hg => by rw [(hv g (hsub g hg)).2, hskip part ha g hg]
      · by_cases hpart : part = taken
        · subst hpart
          refine .inr ⟨k, t₁, l, w, hdt, fun g hg => ⟨(hw part ha g hg).1, ?_⟩⟩
          rw [(hv g (hsub g hg)).2, (hw part ha g hg).2]
        · -- another alternative was taken, and it has no number of this one
          left
          intro g hg
          rw [(hv g (hsub g hg)).2, (hw part ha g hg).2, hdt.span?_eq, (hw part ha g hg).1]
          exact fun hg' => hpart (eq_of_mem_numbers hdis ha hta hg hg')

/-- The spans of a group taken by a derivation hold the spans inside it. -/
theorem nested (h : Derives s pieces p t e u) (hn : (numbers pieces).Nodup)
    (ht : ∀ g ∈ numbers pieces, t.span? g = none) {g : GroupNumber}
    (hmem : .group (some g) alternatives q ∈ pieces) (ha : part ∈ alternatives)
    {k : Nat} (hk : k ∈ numbers part) (hσ : u.span? k = some σ) :
    ∃ ρ, u.span? g = some ρ ∧ ρ.start ≤ σ.start ∧ σ.start ≤ σ.stop ∧ σ.stop ≤ ρ.stop := by
  rcases h.at_group hn ht hmem with
    ⟨-, hskip⟩ | ⟨taken, -, t', j, i, m, v, hij, -, hd, hspan, hv⟩
  · rw [hskip part ha k hk] at hσ; cases hσ
  · rw [(hv part ha k hk).2] at hσ
    obtain ⟨-, h1, h2, h3⟩ := hd.span?_between (hv part ha k hk).1 hσ
    exact ⟨⟨i, m⟩, hspan g rfl, by simp only; omega, h2, h3⟩

/-- Only the alternative of a group that a derivation takes has spans. -/
theorem exclusive (h : Derives s pieces p t e u) (hn : (numbers pieces).Nodup)
    (ht : ∀ g ∈ numbers pieces, t.span? g = none)
    (hmem : .group number alternatives q ∈ pieces) :
    alternatives.Pairwise fun a b =>
      ∀ g ∈ numbers a, ∀ k ∈ numbers b, u.span? g = none ∨ u.span? k = none := by
  obtain ⟨-, -, hdis⟩ := numbers_group_nodup (nodup_of_mem hn hmem)
  apply hdis.imp_of_mem
  intro a b ha hb hab g hg k hk
  rcases h.at_group hn ht hmem with
    ⟨-, hskip⟩ | ⟨taken, hta, t', j, i, m, v, -, -, hd, -, hv⟩
  · exact .inl (hskip a ha g hg)
  · have hnone : ∀ c ∈ alternatives, ∀ n ∈ numbers c, n ∉ numbers taken → u.span? n = none := by
      intro c hc n hn hnt
      rw [(hv c hc n hn).2, hd.span?_eq hnt, (hv c hc n hn).1]
    by_cases hgt : g ∈ numbers taken
    · right
      apply hnone b hb k hk
      intro hkt
      have h1 := eq_of_mem_numbers hdis ha hta hg hgt
      have h2 := eq_of_mem_numbers hdis hb hta hk hkt
      subst h1 h2
      exact hab hg hg
    · exact .inl (hnone a ha g hg hgt)

/-- The spans that a derivation captures follow each other as the pieces do. -/
theorem ordered (h : Derives s pieces p t e u) (hn : (numbers pieces).Nodup)
    (ht : ∀ g ∈ numbers pieces, t.span? g = none) :
    pieces.Pairwise fun a b => ∀ g ∈ a.numbers, ∀ h ∈ b.numbers, ∀ ρ σ, u.span? g = some ρ →
      u.span? h = some σ → ρ.stop ≤ σ.start := by
  induction pieces generalizing p t with
  | nil => exact .nil
  | cons piece rest ih =>
    obtain ⟨m, v, hpiece, hrest⟩ := Derives.append (l := [piece]) h
    rw [numbers_cons, List.nodup_append] at hn
    obtain ⟨-, hnr, hdis⟩ := hn
    -- the first piece leaves the numbers of the rest without spans
    have hone : numbers [piece] = piece.numbers := by simp
    have hv : ∀ g ∈ numbers rest, v.span? g = none := by
      intro g hg
      rw [hpiece.span?_eq (by rw [hone]; exact fun hg' => hdis g hg' g hg rfl)]
      exact ht g (List.mem_append_right _ hg)
    refine List.pairwise_cons.2 ⟨?_, ih hrest hnr hv⟩
    intro b hb g hg h hh ρ σ hρ hσ
    rw [hrest.span?_eq fun hg' => hdis g hg g hg' rfl] at hρ
    obtain ⟨-, -, -, hle⟩ := hpiece.span?_between (ht g (List.mem_append_left _ hg)) hρ
    obtain ⟨-, hle', -⟩ := hrest.span?_between (hv h (mem_numbers_of_mem hb hh)) hσ
    omega

/-- **A derivation arranges the spans of its sequence.** -/
theorem arranged (h : Derives s pieces p t e u) (hn : (numbers pieces).Nodup)
    (ht : ∀ g ∈ numbers pieces, t.span? g = none) : Arranged u pieces where
  nested _ _ _ hmem _ ha _ hk _ hσ := h.nested hn ht hmem ha hk hσ
  exclusive _ _ _ hmem := h.exclusive hn ht hmem
  ordered := h.ordered hn ht

end Derives

/-- **Captures describe one parse tree.** Where the groups have distinct numbers and none of them
has a span to begin with, a match leaves the captures of one parse. -/
theorem parseTree_of_matched (s : Subject) (pieces : List Piece) (p : Nat) (t : Captures) (e : Nat)
    (u : Captures) (hn : (numbers pieces).Nodup) (hp : p ∈ s.starts)
    (ht : ∀ g ∈ numbers pieces, t.span? g = none)
    (h : matchPieces s pieces p t = .matched e u) : ParseTree u pieces := by
  have hd := derives_of_matchPieces hp h
  refine ⟨?_, ?_⟩
  · -- at any depth: no spans, or those of one derivation
    intro seq hs
    obtain ⟨hns, hnone | ⟨j, t', m, v, hseq, hv⟩⟩ := hd.at_sequence hn ht hs
    · exact arranged_of_none hnone
    · have hempty : ∀ g ∈ numbers seq, t'.span? g = none := fun g hg => (hv g hg).1
      exact (hseq.arranged hns hempty).congr fun g hg => (hv g hg).2
  · intro g alternatives q hmem hq
    rcases hd.at_group hn ht hmem with
      ⟨hopt, -⟩ | ⟨taken, -, t', j, i, m, v, -, hplus, -, hspan, -⟩
    · exact absurd hopt hq
    · exact ⟨⟨i, m⟩, hspan g rfl, hplus⟩

/-- The first repetition captures the second group and the last one does not. -/
theorem parseTree_of_matched_repeated :
    (numbers (Regex.ofPattern "((é)|b(c)?)+(d)?").program.pieces).Nodup ∧
      0 ∈ (Subject.ofString "ébcx").starts ∧
      matchPieces (.ofString "ébcx") (Regex.ofPattern "((é)|b(c)?)+(d)?").program.pieces 0 .empty =
        .matched 4 ⟨[some ⟨0, 4⟩, none, some ⟨3, 4⟩]⟩ ∧
      ParseTree ⟨[some ⟨0, 4⟩, none, some ⟨3, 4⟩]⟩
        (Regex.ofPattern "((é)|b(c)?)+(d)?").program.pieces := by
  have hn : (numbers (Regex.ofPattern "((é)|b(c)?)+(d)?").program.pieces).Nodup := by
    decide +kernel
  have hp : 0 ∈ (Subject.ofString "ébcx").starts := Subject.zero_mem_starts
  have hmatch : matchPieces (.ofString "ébcx")
      (Regex.ofPattern "((é)|b(c)?)+(d)?").program.pieces 0 .empty =
        .matched 4 ⟨[some ⟨0, 4⟩, none, some ⟨3, 4⟩]⟩ := by decide +kernel
  exact ⟨hn, hp, hmatch, parseTree_of_matched _ _ 0 .empty 4 _ hn hp
    (fun g _ => Captures.span?_empty g) hmatch⟩

end LineSearch
