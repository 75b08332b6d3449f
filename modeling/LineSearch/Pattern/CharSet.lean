import LineSearch.Pattern.Run
import LineSearch.Pattern.Symbol

/-!
# Bracket classes

* `CharRange.ofSymbols`: the content of a bracket class, read from left to right as ranges.
* `CharSet`: the set of characters that these make up, as canonical runs, and whether the class
  accepts what is in the set or what is not.
* `CharSet.ofContent`: the class with a given content between its brackets.
* `CharSet.accepts_ofRanges`: a class accepts what lies in one of its ranges, unless negated.
-/

namespace LineSearch

/-- The characters from `first` up to `last`, both included; none if `last` comes first. -/
structure CharRange where
  first : Char
  last : Char
  deriving DecidableEq, Repr

namespace CharRange

def contains (range : CharRange) (c : Char) : Bool :=
  range.first.toNat ≤ c.toNat && c.toNat ≤ range.last.toNat

/-- The ranges of a class content. A member, an unescaped `-` and a member make up a range; any
other member stands for itself. -/
def ofSymbols : List Symbol → List CharRange
  | first :: .plain '-' :: last :: rest => ⟨first.char, last.char⟩ :: ofSymbols rest
  | member :: rest => ⟨member.char, member.char⟩ :: ofSymbols rest
  | [] => []

/-- The runs of code points of a range: two if it reaches over the surrogates, which are no
characters. -/
def runs (range : CharRange) : List Run :=
  if range.last.toNat < range.first.toNat then []
  else if range.first.toNat < 0xD800 ∧ 0xDFFF < range.last.toNat then
    [⟨range.first.toNat, 0xD7FF⟩, ⟨0xE000, range.last.toNat⟩]
  else [⟨range.first.toNat, range.last.toNat⟩]

end CharRange

/-- A character is a code point on one side of the surrogates. -/
theorem toNat_isScalar (c : Char) : c.toNat < 0xD800 ∨ 0xDFFF < c.toNat ∧ c.toNat < 0x110000 :=
  c.valid

theorem CharRange.valid_of_mem_runs {range : CharRange} {r : Run} (h : r ∈ range.runs) :
    r.Valid := by
  have hf := toNat_isScalar range.first
  have hl := toNat_isScalar range.last
  simp only [runs] at h
  split at h
  · simp at h
  · split at h
    · simp only [List.mem_cons, List.not_mem_nil, or_false] at h
      rcases h with rfl | rfl <;> simp only [Run.Valid] <;> omega
    · simp only [List.mem_singleton] at h
      subst h
      simp only [Run.Valid]
      omega

theorem CharRange.any_contains_runs (range : CharRange) (c : Char) :
    range.runs.any (·.contains c.toNat) = range.contains c := by
  have hc := toNat_isScalar c
  have hf := toNat_isScalar range.first
  have hl := toNat_isScalar range.last
  rw [Bool.eq_iff_iff]
  simp only [runs, contains]
  split
  · simp; omega
  · split
    · simp [Run.contains]; omega
    · simp [Run.contains]

/-- A bracket class. The runs are canonical, so classes that hold the same characters are equal. -/
structure CharSet where
  negated : Bool
  runs : List Run
  canonical : Run.Canonical runs
  deriving DecidableEq

namespace CharSet

/-- The canonical runs of some ranges. -/
def merge : List CharRange → List Run
  | [] => []
  | range :: ranges => range.runs.foldr Run.insert (merge ranges)

theorem canonical_foldr_insert {rs ss : List Run} (hr : ∀ r ∈ rs, r.Valid)
    (hs : Run.Canonical ss) : Run.Canonical (rs.foldr Run.insert ss) := by
  induction rs with
  | nil => exact hs
  | cons r rs ih =>
    simp only [List.mem_cons, forall_eq_or_imp] at hr
    exact Run.canonical_insert hr.1 (ih hr.2)

theorem canonical_merge (ranges : List CharRange) : Run.Canonical (merge ranges) := by
  induction ranges with
  | nil => exact Run.canonical_nil
  | cons range ranges ih => exact canonical_foldr_insert (fun _ => CharRange.valid_of_mem_runs) ih

theorem any_contains_foldr_insert {rs ss : List Run} (hr : ∀ r ∈ rs, r.Valid)
    (hs : Run.Canonical ss) (n : Nat) :
    (rs.foldr Run.insert ss).any (·.contains n) =
      (rs.any (·.contains n) || ss.any (·.contains n)) := by
  induction rs with
  | nil => rfl
  | cons r rs ih =>
    simp only [List.mem_cons, forall_eq_or_imp] at hr
    rw [List.foldr_cons, Run.any_contains_insert hr.1 (canonical_foldr_insert hr.2 hs).valid,
      ih hr.2, List.any_cons, Bool.or_assoc]

theorem any_contains_merge (ranges : List CharRange) (c : Char) :
    (merge ranges).any (·.contains c.toNat) = ranges.any (·.contains c) := by
  induction ranges with
  | nil => rfl
  | cons range ranges ih =>
    rw [merge, any_contains_foldr_insert (fun _ => CharRange.valid_of_mem_runs)
      (canonical_merge ranges), CharRange.any_contains_runs, ih, List.any_cons]

/-- The class of some ranges. -/
def ofRanges (negated : Bool) (ranges : List CharRange) : CharSet :=
  ⟨negated, merge ranges, canonical_merge ranges⟩

/-- The class with a given content; an unescaped `^` in front negates it. -/
def ofContent : List Symbol → CharSet
  | .plain '^' :: body => ofRanges true (CharRange.ofSymbols body)
  | body => ofRanges false (CharRange.ofSymbols body)

variable (set : CharSet)

/-- The characters in the set, in increasing order. A negated class accepts all others. -/
def members : List Char :=
  set.runs.flatMap Run.chars

/-- The number of characters in the set. -/
def count : Nat :=
  set.runs.foldr (fun r n => r.length + n) 0

def accepts (c : Char) : Bool :=
  set.runs.any (·.contains c.toNat) != set.negated

/-- **A class accepts what lies in one of its ranges,** or in none of them if it is negated. -/
theorem accepts_ofRanges (negated : Bool) (ranges : List CharRange) (c : Char) :
    (ofRanges negated ranges).accepts c = (ranges.any (·.contains c) != negated) := by
  simp only [accepts, ofRanges, any_contains_merge]

end CharSet

end LineSearch
