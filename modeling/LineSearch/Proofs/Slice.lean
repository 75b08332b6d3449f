import LineSearch.Match.Captures

/-!
# Slices and boundaries

Facts about the text between two offsets of a subject.

* `mem_starts_iff`: the boundaries are the offsets from which a matcher can look ahead.
* `slice_iff_isPrefix`: the slices from a boundary on are the prefixes of what lies ahead of it.
* `slice_split`: a boundary inside a slice cuts it in two.
-/

namespace LineSearch

namespace Text

variable {l r cs : List Char}

/-- Only the empty text has no bytes. -/
theorem eq_nil_of_size_eq_zero (h : size l = 0) : l = [] := by
  cases l with
  | nil => rfl
  | cons c l =>
    have := c.utf8Size_pos
    rw [size_cons] at h; omega

/-- Of two prefixes of a text the smaller one is a prefix of the other. -/
theorem prefix_of_size_le (hl : l <+: cs) (hr : r <+: cs) (h : size l ≤ size r) : l <+: r := by
  rcases List.prefix_or_prefix_of_prefix hl hr with h' | ⟨m, rfl⟩
  · exact h'
  · have hm : m = [] := eq_nil_of_size_eq_zero (by rw [size_append] at h; omega)
    exact ⟨[], by simp only [hm, List.append_nil]⟩

end Text

namespace Subject

variable {s : Subject} {p q m : Nat} {w v ahead : List Char}

/-- **A boundary is an offset from which one can look ahead.** -/
theorem mem_starts_iff : p ∈ s.starts ↔ ∃ ahead, s.ahead p = some ahead := by
  rw [starts, Text.mem_boundaries_iff, exists_comm]
  simp only [ahead_eq, Text.suffixAt_eq_some_iff]

theorem le_size_of_mem_starts (hp : p ∈ s.starts) : p ≤ s.size := by
  rw [starts, Text.mem_boundaries_iff] at hp
  obtain ⟨l, r, htext, hl⟩ := hp
  rw [size_eq, htext, Text.size_append]; omega

theorem zero_mem_starts : 0 ∈ s.starts :=
  List.mem_cons_self

/-- Past a character that lies ahead, the rest of what lies ahead of it follows. -/
theorem ahead_add_utf8Size {c : Char} (h : s.ahead p = some (c :: ahead)) :
    s.ahead (p + c.utf8Size) = some ahead := by
  rw [ahead_eq, Text.suffixAt_eq_some_iff] at *
  obtain ⟨l, htext, hl⟩ := h
  refine ⟨l ++ [c], by rw [htext, List.append_assoc]; rfl, ?_⟩
  rw [Text.size_append, hl]; rfl

/-- From a boundary on, the slices are the prefixes of what lies ahead. -/
theorem slice_iff_isPrefix (h : s.ahead p = some ahead) :
    s.slice ⟨p, m⟩ = some w ↔ w <+: ahead ∧ p + Text.size w = m := by
  rw [ahead_eq, Text.suffixAt_eq_some_iff] at h
  obtain ⟨l, htext, hl⟩ := h
  rw [slice_eq_some_iff]
  constructor
  · rintro ⟨l', r, htext', hl', hw⟩
    rw [htext, List.append_assoc] at htext'
    -- both `l` and `l'` are what lies before `p`
    have hpre : l <+: s.text := ⟨ahead, htext.symm⟩
    have hpre' : l' <+: s.text := ⟨w ++ r, by rw [htext, htext']⟩
    have h₁ : l <+: l' := Text.prefix_of_size_le hpre hpre' (by simp only [hl, hl', Nat.le_refl])
    have h₂ : l' <+: l := Text.prefix_of_size_le hpre' hpre (by simp only [hl, hl', Nat.le_refl])
    have hle : l = l' := h₁.eq_of_length_le h₂.length_le
    subst hle
    exact ⟨⟨r, (List.append_cancel_left htext').symm⟩, hw⟩
  · rintro ⟨⟨r, rfl⟩, hw⟩
    exact ⟨l, r, by rw [htext, List.append_assoc], hl, hw⟩

theorem add_size_of_slice (h : s.slice ⟨p, m⟩ = some w) : p + Text.size w = m := by
  obtain ⟨l, r, -, -, hw⟩ := (slice_eq_some_iff s).1 h
  exact hw

theorem le_of_slice (h : s.slice ⟨p, m⟩ = some w) : p ≤ m := by
  have := add_size_of_slice h
  omega

theorem left_mem_starts (h : s.slice ⟨p, m⟩ = some w) : p ∈ s.starts := by
  obtain ⟨l, r, htext, hl, -⟩ := (slice_eq_some_iff s).1 h
  exact Text.mem_boundaries_iff.2 ⟨l, w ++ r, by rw [htext, List.append_assoc], hl⟩

theorem right_mem_starts (h : s.slice ⟨p, m⟩ = some w) : m ∈ s.starts := by
  obtain ⟨l, r, htext, hl, hw⟩ := (slice_eq_some_iff s).1 h
  exact Text.mem_boundaries_iff.2 ⟨l ++ w, r, htext, by rw [Text.size_append, hl, hw]⟩

/-- Two slices in a row make up one. -/
theorem slice_append (hw : s.slice ⟨p, q⟩ = some w) (hv : s.slice ⟨q, m⟩ = some v) :
    s.slice ⟨p, m⟩ = some (w ++ v) := by
  obtain ⟨ahead, hahead⟩ := mem_starts_iff.1 (left_mem_starts hw)
  obtain ⟨⟨rest, rfl⟩, hq⟩ := (slice_iff_isPrefix hahead).1 hw
  have hrest : s.ahead q = some rest := by
    rw [ahead_eq, Text.suffixAt_eq_some_iff] at *
    obtain ⟨l, htext, hl⟩ := hahead
    exact ⟨l ++ w, by rw [htext, List.append_assoc], by rw [Text.size_append, hl, hq]⟩
  obtain ⟨⟨r, rfl⟩, hm⟩ := (slice_iff_isPrefix hrest).1 hv
  exact (slice_iff_isPrefix hahead).2
    ⟨⟨r, by rw [List.append_assoc]⟩, by rw [Text.size_append]; omega⟩

/-- Of two slices from the same offset the one that ends first is a prefix of the other. -/
theorem prefix_of_slices (hw : s.slice ⟨p, m⟩ = some w) (hv : s.slice ⟨p, q⟩ = some v)
    (hmq : m ≤ q) : w <+: v := by
  obtain ⟨ahead, hahead⟩ := mem_starts_iff.1 (left_mem_starts hw)
  have hw' := (slice_iff_isPrefix hahead).1 hw
  have hv' := (slice_iff_isPrefix hahead).1 hv
  exact Text.prefix_of_size_le hw'.1 hv'.1 (by omega)

/-- **A boundary inside a slice cuts it in two.** -/
theorem slice_split (h : s.slice ⟨p, m⟩ = some w) (hq : q ∈ s.starts) (hpq : p ≤ q) (hqm : q ≤ m) :
    ∃ w₁ w₂, w = w₁ ++ w₂ ∧ s.slice ⟨p, q⟩ = some w₁ ∧ s.slice ⟨q, m⟩ = some w₂ := by
  obtain ⟨l, r, htext, hl, hw⟩ := (slice_eq_some_iff s).1 h
  obtain ⟨l', r', htext', hl'⟩ := Text.mem_boundaries_iff.1 hq
  -- `q` lies between `l` and `l ++ w`, so what lies before it lies between them too
  have hlw : l <+: s.text := ⟨w ++ r, by rw [htext, List.append_assoc]⟩
  obtain ⟨w₁, rfl⟩ : l <+: l' :=
    Text.prefix_of_size_le hlw ⟨r', htext'.symm⟩ (by simp only [hl, hl']; exact hpq)
  obtain ⟨w₂, h₂⟩ : l ++ w₁ <+: l ++ w :=
    Text.prefix_of_size_le ⟨r', htext'.symm⟩ ⟨r, htext.symm⟩
      (by rw [hl', Text.size_append, hl, hw]; exact hqm)
  have hw₁ : w = w₁ ++ w₂ := by
    rw [List.append_assoc] at h₂
    exact (List.append_cancel_left h₂).symm
  rw [Text.size_append, hl] at hl'
  subst hw₁
  have hm : p + (Text.size w₁ + Text.size w₂) = m := by rw [← Text.size_append]; exact hw
  refine ⟨w₁, w₂, rfl, (slice_eq_some_iff s).2 ⟨l, w₂ ++ r, ?_, hl, hl'⟩,
    (slice_eq_some_iff s).2 ⟨l ++ w₁, r, ?_, ?_, ?_⟩⟩
  · rw [htext]; simp only [List.append_assoc]
  · rw [htext]; simp only [List.append_assoc]
  · rw [Text.size_append, hl]; exact hl'
  · simp only [← hl', ← hm, Nat.add_assoc]

end Subject

end LineSearch
