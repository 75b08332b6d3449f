import LineSearch.Match.Pieces
import LineSearch.Proofs.Derivation

/-!
# Where an atom may stop

The matcher offers the offsets where an atom may end as a list, best first.

* `Atom.mem_stops_iff`: these are the ends of what the atom may take, and no others.
* `Atom.stops_pairwise`: best first means furthest first.
-/

namespace LineSearch

theorem prefix_takeWhile_iff {α : Type} {f : α → Bool} {w l : List α} :
    w <+: l.takeWhile f ↔ w <+: l ∧ ∀ a ∈ w, f a = true := by
  induction l generalizing w with
  | nil =>
    simp only [List.takeWhile_nil, List.prefix_nil]
    constructor
    · rintro rfl
      simp
    · exact And.left
  | cons b l ih =>
    cases w with
    | nil => simp
    | cons a w =>
      by_cases hb : f b = true
      · rw [List.takeWhile_cons_of_pos hb, List.cons_prefix_cons, List.cons_prefix_cons, ih]
        simp only [List.mem_cons, forall_eq_or_imp]
        constructor
        · rintro ⟨rfl, hw, hf⟩
          exact ⟨⟨rfl, hw⟩, hb, hf⟩
        · rintro ⟨⟨rfl, hw⟩, -, hf⟩
          exact ⟨rfl, hw, hf⟩
      · rw [List.takeWhile_cons_of_neg hb]
        constructor
        · intro h
          exact absurd (List.prefix_nil.1 h) (by simp)
        · rintro ⟨hw, hf⟩
          obtain ⟨rfl, -⟩ := List.cons_prefix_cons.1 hw
          exact absurd (hf a List.mem_cons_self) hb

/-- The ends of a text are those of its prefixes that are not empty. -/
theorem Text.mem_ends_iff_isPrefix {n p : Nat} {cs : List Char} :
    n ∈ Text.ends p cs ↔ ∃ w, w <+: cs ∧ 1 ≤ w.length ∧ p + Text.size w = n := by
  rw [Text.mem_ends_iff]
  constructor
  · rintro ⟨w, r, rfl, hw, hn⟩
    exact ⟨w, ⟨r, rfl⟩, List.length_pos_iff.2 hw, hn⟩
  · rintro ⟨w, ⟨r, rfl⟩, hw, hn⟩
    exact ⟨w, r, rfl, List.length_pos_iff.1 hw, hn⟩

theorem Text.lt_of_mem_ends {n p : Nat} {cs : List Char} (h : n ∈ Text.ends p cs) : p < n := by
  obtain ⟨w, -, hw, rfl⟩ := Text.mem_ends_iff_isPrefix.1 h
  have hpos : Text.size w ≠ 0 := by
    intro h0
    rw [Text.eq_nil_of_size_eq_zero h0] at hw
    simp at hw
  omega

theorem Text.ends_pairwise (p : Nat) (cs : List Char) : (Text.ends p cs).Pairwise (· < ·) := by
  induction cs generalizing p with
  | nil => exact .nil
  | cons c cs ih =>
    exact List.pairwise_cons.2 ⟨fun n hn => Text.lt_of_mem_ends hn, ih _⟩

variable {s : Subject} {x : Atom} {q : Quantifier} {p m : Nat} {ahead : List Char}

/-- **An atom stops exactly where something ends that it may take.** -/
theorem Atom.mem_stops_iff (h : s.ahead p = some ahead) :
    m ∈ x.stops q p ahead ↔ ∃ w, x.Takes q w ∧ s.slice ⟨p, m⟩ = some w := by
  simp only [Subject.slice_iff_isPrefix h, Atom.Takes]
  cases q with
  | one =>
    simp only [Atom.stops, Text.mem_ends_iff_isPrefix, prefix_takeWhile_iff, List.prefix_take_iff]
    constructor
    · rintro ⟨w, ⟨⟨hw, hlen⟩, hx⟩, hpos, hm⟩
      exact ⟨w, ⟨by simp only [Quantifier.Allows]; omega, hx⟩, hw, hm⟩
    · rintro ⟨w, ⟨hlen, hx⟩, hw, hm⟩
      simp only [Quantifier.Allows] at hlen
      exact ⟨w, ⟨⟨hw, by omega⟩, hx⟩, by omega, hm⟩
  | plus =>
    simp only [Atom.stops, List.mem_reverse, Text.mem_ends_iff_isPrefix, prefix_takeWhile_iff]
    constructor
    · rintro ⟨w, ⟨hw, hx⟩, hlen, hm⟩
      exact ⟨w, ⟨hlen, hx⟩, hw, hm⟩
    · rintro ⟨w, ⟨hlen, hx⟩, hw, hm⟩
      exact ⟨w, ⟨hw, hx⟩, hlen, hm⟩
  | optional =>
    simp only [Atom.stops, List.mem_append, List.mem_singleton, Text.mem_ends_iff_isPrefix,
      prefix_takeWhile_iff, List.prefix_take_iff]
    constructor
    · rintro (⟨w, ⟨⟨hw, hlen⟩, hx⟩, -, hm⟩ | rfl)
      · exact ⟨w, ⟨hlen, hx⟩, hw, hm⟩
      · exact ⟨[], ⟨by simp [Quantifier.Allows], by simp⟩, List.nil_prefix, rfl⟩
    · rintro ⟨w, ⟨hlen, hx⟩, hw, hm⟩
      rcases Nat.eq_zero_or_pos w.length with h0 | hpos
      · rw [List.length_eq_zero_iff.1 h0] at hm
        exact .inr hm.symm
      · exact .inl ⟨w, ⟨⟨hw, hlen⟩, hx⟩, hpos, hm⟩

/-- **The stops of an atom come furthest first.** -/
theorem Atom.stops_pairwise (x : Atom) (q : Quantifier) (p : Nat) (ahead : List Char) :
    (x.stops q p ahead).Pairwise (· > ·) := by
  have hone : (Text.ends p ((ahead.take 1).takeWhile x.accepts)).Pairwise (· > ·) := by
    cases ahead with
    | nil => exact .nil
    | cons c ahead =>
      by_cases hc : x.accepts c = true <;> simp [hc, Text.ends]
  cases q with
  | one => exact hone
  | plus => exact List.pairwise_reverse.2 (Text.ends_pairwise _ _)
  | optional =>
    refine List.pairwise_append.2 ⟨hone, List.pairwise_singleton _ _, ?_⟩
    intro m hm n hn
    rw [List.mem_singleton.1 hn]
    exact Text.lt_of_mem_ends hm

end LineSearch
