/-!
# Byte offsets into a text

A text is a list of characters. Positions in it are byte offsets into its UTF-8 form,
so an offset may fall inside a character or past the end.

* `cut`: the two parts of a text at an offset, if it is a character boundary.
* `cut_eq_some_iff`: a cut loses nothing, and its first part has the wanted size.
* `ends`: the offsets after each character; `boundaries`: these and the offset `0`.
* `mem_boundaries_iff`: the boundaries are the offsets where a text can be cut.
-/

namespace LineSearch.Text

variable {n p : Nat} {cs l r : List Char}

/-- The number of bytes of a text in UTF-8. -/
def size : List Char → Nat
  | [] => 0
  | c :: cs => c.utf8Size + size cs

@[simp] theorem size_nil : size [] = 0 := rfl

@[simp] theorem size_cons (c : Char) (cs : List Char) :
    size (c :: cs) = c.utf8Size + size cs := rfl

@[simp] theorem size_append (l r : List Char) : size (l ++ r) = size l + size r := by
  induction l with
  | nil => simp
  | cons c l ih => simp [ih, Nat.add_assoc]

/-- The parts of a text before and after byte offset `n`; `none` when `n` is not a
character boundary of the text. -/
def cut : Nat → List Char → Option (List Char × List Char)
  | 0, cs => some ([], cs)
  | _ + 1, [] => none
  | n + 1, c :: cs =>
    if c.utf8Size ≤ n + 1 then
      (cut (n + 1 - c.utf8Size) cs).map fun (l, r) => (c :: l, r)
    else none

@[simp] theorem cut_zero (cs : List Char) : cut 0 cs = some ([], cs) := by
  cases cs <;> rfl

/-- A text cut after `l` gives `l` and what follows. -/
theorem cut_size_append (l r : List Char) : cut (size l) (l ++ r) = some (l, r) := by
  induction l with
  | nil => simp
  | cons c l ih =>
    obtain ⟨n, hn⟩ : ∃ n, c.utf8Size + size l = n + 1 :=
      ⟨c.utf8Size + size l - 1, by have := c.utf8Size_pos; omega⟩
    simp only [size_cons, List.cons_append, hn, cut]
    rw [if_pos (by omega), ← hn, Nat.add_sub_cancel_left, ih]
    rfl

/-- **A cut loses nothing,** and its first part has the wanted size. -/
theorem cut_eq_some_iff : cut n cs = some (l, r) ↔ cs = l ++ r ∧ size l = n := by
  refine ⟨fun h => ?_, fun ⟨hcs, hn⟩ => hcs ▸ hn ▸ cut_size_append l r⟩
  fun_induction cut n cs generalizing l r with
  | case1 cs => simp_all
  | case2 => simp at h
  | case3 n c cs hc ih =>
    obtain ⟨⟨l', r'⟩, h', heq⟩ := Option.map_eq_some_iff.1 h
    obtain ⟨rfl, rfl⟩ := Prod.mk.inj heq
    obtain ⟨rfl, hs⟩ := ih h'
    exact ⟨rfl, by simp only [size_cons]; omega⟩
  | case4 => simp at h

/-- What is left of a text from byte offset `n` on. -/
def suffixAt (cs : List Char) (n : Nat) : Option (List Char) :=
  (cut n cs).map Prod.snd

@[simp] theorem suffixAt_zero (cs : List Char) : suffixAt cs 0 = some cs := by
  simp [suffixAt]

theorem suffixAt_eq_some_iff : suffixAt cs n = some r ↔ ∃ l, cs = l ++ r ∧ size l = n := by
  simp [suffixAt, Option.map_eq_some_iff, cut_eq_some_iff]

/-- The offsets after each character of a text that starts at offset `p`. -/
def ends (p : Nat) : List Char → List Nat
  | [] => []
  | c :: cs => (p + c.utf8Size) :: ends (p + c.utf8Size) cs

theorem mem_ends_iff :
    n ∈ ends p cs ↔ ∃ l r, cs = l ++ r ∧ l ≠ [] ∧ p + size l = n := by
  induction cs generalizing p with
  | nil => simp [ends]
  | cons c cs ih =>
    simp only [ends, List.mem_cons, ih]
    constructor
    · rintro (rfl | ⟨l, r, rfl, -, rfl⟩)
      · exact ⟨[c], cs, rfl, by simp, by simp⟩
      · exact ⟨c :: l, r, rfl, by simp, by simp [Nat.add_assoc]⟩
    · rintro ⟨l, r, hcs, hl, rfl⟩
      obtain _ | ⟨d, l⟩ := l
      · exact absurd rfl hl
      · obtain ⟨rfl, rfl⟩ := List.cons.inj hcs
        obtain _ | ⟨e, l⟩ := l
        · exact .inl (by simp)
        · exact .inr ⟨e :: l, r, rfl, by simp, by simp [Nat.add_assoc]⟩

/-- Every character boundary of a text, from `0` to its size. -/
def boundaries (cs : List Char) : List Nat :=
  0 :: ends 0 cs

/-- **The boundaries are the offsets where a text can be cut.** -/
theorem mem_boundaries_iff : n ∈ boundaries cs ↔ ∃ l r, cs = l ++ r ∧ size l = n := by
  simp only [boundaries, List.mem_cons, mem_ends_iff, Nat.zero_add]
  constructor
  · rintro (rfl | ⟨l, r, hcs, -, hn⟩)
    · exact ⟨[], cs, rfl, rfl⟩
    · exact ⟨l, r, hcs, hn⟩
  · rintro ⟨l, r, hcs, hn⟩
    obtain _ | ⟨c, l⟩ := l
    · exact .inl hn.symm
    · exact .inr ⟨_, r, hcs, by simp, hn⟩

end LineSearch.Text
