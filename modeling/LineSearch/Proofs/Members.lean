import Mathlib.Data.List.Sort
import LineSearch.Pattern.CharSet

/-!
# The characters in a bracket class

A class keeps its characters as runs of code points. They stand for the characters one by one:

* `Run.Canonical.ext`: canonical runs with the same characters are the same.
* `CharSet.mem_members_iff`, `CharSet.members_pairwise`: the members of a class are the characters
  of its runs, in increasing order.
* `CharSet.merge_singles`: the members, each taken as a range of its own, make up the class again.
* `CharSet.exists_members`: any characters in increasing order are the members of a class.
-/

namespace LineSearch

namespace Run

variable {r s : Run} {rs ss : List Run} {c : Char} {n : Nat}

theorem contains_iff : r.contains n = true ↔ r.first ≤ n ∧ n ≤ r.last := by
  simp only [contains, Bool.and_eq_true, decide_eq_true_eq]

/-- A valid run contains code points of characters only. -/
theorem Valid.toNat_ofNat (hr : r.Valid) (hn : r.contains n = true) : (Char.ofNat n).toNat = n := by
  have hvalid : n.isValidChar := by
    rw [contains_iff] at hn
    simp only [Valid] at hr
    simp only [Nat.isValidChar]
    omega
  rw [Char.ofNat, dif_pos hvalid]
  rfl

theorem mem_range'_iff (hr : r.Valid) : n ∈ List.range' r.first r.length ↔ r.contains n = true := by
  have hle := hr.1
  rw [List.mem_range'_1, length, contains_iff]
  omega

/-- **The characters of a run** are those between its ends. -/
theorem mem_chars_iff (hr : r.Valid) : c ∈ r.chars ↔ r.contains c.toNat = true := by
  rw [chars, List.mem_map]
  constructor
  · rintro ⟨n, hn, rfl⟩
    rw [mem_range'_iff hr] at hn
    rw [hr.toNat_ofNat hn]
    exact hn
  · intro hc
    exact ⟨c.toNat, (mem_range'_iff hr).2 hc, Char.ofNat_toNat c⟩

theorem chars_pairwise (hr : r.Valid) : r.chars.Pairwise (· < ·) := by
  rw [chars, List.pairwise_map]
  have hrange : (List.range' r.first r.length).Pairwise (· < ·) := List.pairwise_lt_range' 1
  refine hrange.imp_of_mem ?_
  intro m n hm hn hlt
  rw [mem_range'_iff hr] at hm hn
  have hlt' : (Char.ofNat m).toNat < (Char.ofNat n).toNat := by
    rw [hr.toNat_ofNat hm, hr.toNat_ofNat hn]
    exact hlt
  exact hlt'

/-- Some run of a list contains a code point. -/
theorem any_contains_iff : rs.any (·.contains n) = true ↔ ∃ r ∈ rs, r.first ≤ n ∧ n ≤ r.last := by
  simp only [List.any_eq_true, contains_iff]

theorem Canonical.tail (h : Canonical (r :: rs)) : Canonical rs :=
  ⟨fun s hs => h.valid s (List.mem_cons_of_mem _ hs), (List.pairwise_cons.1 h.separated).2⟩

theorem Canonical.head_lt (h : Canonical (r :: rs)) (hs : s ∈ rs) : r.last + 1 < s.first :=
  (List.pairwise_cons.1 h.separated).1 s hs

/-- What the later runs of canonical runs contain comes after the first run. -/
theorem Canonical.any_tail_iff (h : Canonical (r :: rs)) :
    rs.any (·.contains n) = true ↔ (r :: rs).any (·.contains n) = true ∧ r.last < n := by
  rw [any_contains_iff, any_contains_iff]
  constructor
  · rintro ⟨s, hs, h1, h2⟩
    have hlt := h.head_lt hs
    exact ⟨⟨s, List.mem_cons_of_mem _ hs, h1, h2⟩, by omega⟩
  · rintro ⟨⟨s, hs, h1, h2⟩, hlt⟩
    rcases List.mem_cons.1 hs with rfl | hs
    · omega
    · exact ⟨s, hs, h1, h2⟩

/-- The first of canonical runs begins before all the others. -/
theorem Canonical.first_le (h : Canonical (r :: rs))
    (hn : (r :: rs).any (·.contains n) = true) : r.first ≤ n := by
  obtain ⟨t, ht, hle, -⟩ := any_contains_iff.1 hn
  rcases List.mem_cons.1 ht with rfl | ht
  · exact hle
  · have hlt := h.head_lt ht
    have hrle := (h.valid r List.mem_cons_self).1
    omega

/-- Right after the first of canonical runs there is a gap. -/
theorem Canonical.gap (h : Canonical (r :: rs)) :
    ¬ (r :: rs).any (·.contains (r.last + 1)) = true := by
  intro hn
  obtain ⟨t, ht, hle, hle'⟩ := any_contains_iff.1 hn
  rcases List.mem_cons.1 ht with rfl | ht
  · omega
  · have hlt := h.head_lt ht
    omega

/-- The first of some canonical runs begins no later and ends no earlier than that of others with
the same code points. -/
theorem Canonical.head_le (hr : Canonical (r :: rs)) (hs : Canonical (s :: ss))
    (h : ∀ n, (r :: rs).any (·.contains n) = (s :: ss).any (·.contains n)) :
    r.first ≤ s.first ∧ s.last ≤ r.last := by
  have hrle := (hr.valid r List.mem_cons_self).1
  have hsle := (hs.valid s List.mem_cons_self).1
  have hfirst : r.first ≤ s.first := by
    apply hr.first_le
    rw [h, any_contains_iff]
    exact ⟨s, List.mem_cons_self, Nat.le_refl _, hsle⟩
  have hfirst' : s.first ≤ r.first := by
    apply hs.first_le
    rw [← h, any_contains_iff]
    exact ⟨r, List.mem_cons_self, Nat.le_refl _, hrle⟩
  refine ⟨hfirst, ?_⟩
  rcases Nat.lt_or_ge r.last s.last with hlt | hle
  · -- `s` would reach into the gap after `r`
    have hmem : (r :: rs).any (·.contains (r.last + 1)) = true := by
      rw [h, any_contains_iff]
      exact ⟨s, List.mem_cons_self, by omega, hlt⟩
    exact absurd hmem hr.gap
  · exact hle

/-- **Canonical runs with the same characters are the same.** -/
theorem Canonical.ext (hr : Canonical rs) (hs : Canonical ss)
    (h : ∀ c : Char, rs.any (·.contains c.toNat) = ss.any (·.contains c.toNat)) : rs = ss := by
  -- runs contain no other code points than those of characters
  have hvalid : ∀ {rs : List Run} {n : Nat}, Canonical rs → rs.any (·.contains n) = true →
      ∃ c : Char, c.toNat = n := by
    intro rs n hrs hn
    obtain ⟨r, hr, h1, h2⟩ := any_contains_iff.1 hn
    exact ⟨Char.ofNat n, (hrs.valid r hr).toNat_ofNat (contains_iff.2 ⟨h1, h2⟩)⟩
  have hall : ∀ n, rs.any (·.contains n) = ss.any (·.contains n) := by
    intro n
    rw [Bool.eq_iff_iff]
    constructor
    · intro hn
      obtain ⟨c, rfl⟩ := hvalid hr hn
      rw [← h]
      exact hn
    · intro hn
      obtain ⟨c, rfl⟩ := hvalid hs hn
      rw [h]
      exact hn
  clear h
  induction rs generalizing ss with
  | nil =>
    cases ss with
    | nil => rfl
    | cons s ss =>
      have hmem : ([] : List Run).any (·.contains s.first) = true := by
        rw [hall, any_contains_iff]
        exact ⟨s, List.mem_cons_self, Nat.le_refl _, (hs.valid s List.mem_cons_self).1⟩
      cases hmem
  | cons r rs ih =>
    cases ss with
    | nil =>
      have hmem : ([] : List Run).any (·.contains r.first) = true := by
        rw [← hall, any_contains_iff]
        exact ⟨r, List.mem_cons_self, Nat.le_refl _, (hr.valid r List.mem_cons_self).1⟩
      cases hmem
    | cons s ss =>
      obtain ⟨h1, h2⟩ := hr.head_le hs hall
      obtain ⟨h3, h4⟩ := hs.head_le hr fun n => (hall n).symm
      have hhead : r = s := by
        cases r
        cases s
        simp only [Run.mk.injEq]
        exact ⟨Nat.le_antisymm h1 h3, Nat.le_antisymm h4 h2⟩
      subst hhead
      have htail : ∀ n, rs.any (·.contains n) = ss.any (·.contains n) := by
        intro n
        rw [Bool.eq_iff_iff, hr.any_tail_iff, hs.any_tail_iff, hall]
      rw [ih hr.tail hs.tail htail]

end Run

namespace CharSet

variable {set : CharSet} {c : Char}

/-- **The members of a class** are the characters that its runs contain. -/
theorem mem_members_iff : c ∈ set.members ↔ set.runs.any (·.contains c.toNat) = true := by
  rw [members, List.mem_flatMap, List.any_eq_true]
  constructor
  · rintro ⟨r, hr, hc⟩
    exact ⟨r, hr, (Run.mem_chars_iff (set.canonical.valid r hr)).1 hc⟩
  · rintro ⟨r, hr, hc⟩
    exact ⟨r, hr, (Run.mem_chars_iff (set.canonical.valid r hr)).2 hc⟩

/-- The members of a class stand in increasing order, each of them once. -/
theorem members_pairwise (set : CharSet) : set.members.Pairwise (· < ·) := by
  rw [members, List.pairwise_flatMap]
  refine ⟨fun r hr => Run.chars_pairwise (set.canonical.valid r hr), ?_⟩
  refine set.canonical.separated.imp_of_mem ?_
  intro r s hr hs hlt c hc d hd
  rw [Run.mem_chars_iff (set.canonical.valid r hr)] at hc
  rw [Run.mem_chars_iff (set.canonical.valid s hs)] at hd
  rw [Run.contains_iff] at hc hd
  have hcd : c.toNat < d.toNat := by omega
  exact hcd

/-- Ranges of one character each hold these characters and no others. -/
theorem any_contains_singles (cs : List Char) (c : Char) :
    (cs.map fun d => (⟨d, d⟩ : CharRange)).any (·.contains c) = true ↔ c ∈ cs := by
  simp only [List.any_map, List.any_eq_true, Function.comp, CharRange.contains, Bool.and_eq_true,
    decide_eq_true_eq]
  constructor
  · rintro ⟨d, hd, h1, h2⟩
    rw [Char.toNat_inj.1 (Nat.le_antisymm h2 h1)]
    exact hd
  · intro hc
    exact ⟨c, hc, Nat.le_refl _, Nat.le_refl _⟩

/-- **A class is made up of its members,** each of them a range of its own. -/
theorem merge_singles (set : CharSet) :
    merge (set.members.map fun c => ⟨c, c⟩) = set.runs := by
  refine Run.Canonical.ext (canonical_merge _) set.canonical fun c => ?_
  rw [any_contains_merge, Bool.eq_iff_iff, any_contains_singles, mem_members_iff]

/-- **Any characters in increasing order** are the members of a class, negated or not. -/
theorem exists_members (negated : Bool) {cs : List Char} (h : cs.Pairwise (· < ·)) :
    ∃ set : CharSet, set.negated = negated ∧ set.members = cs := by
  refine ⟨ofRanges negated (cs.map fun c => ⟨c, c⟩), rfl, ?_⟩
  refine List.Pairwise.eq_of_mem_iff (members_pairwise _) h fun c => ?_
  rw [mem_members_iff, ofRanges, any_contains_merge, any_contains_singles]

end CharSet

end LineSearch
