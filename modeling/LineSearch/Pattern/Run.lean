/-!
# Runs of code points

A set of code points is kept as its maximal runs, in increasing order.

* `Run.Valid`: a run holds characters only, so it lies on one side of the surrogates.
* `Run.insert`: adds a run to a list of runs and merges what overlaps or touches it.
* `Run.Canonical`: valid runs in increasing order with a gap between any two.
* `Run.canonical_insert`: inserting keeps runs canonical.
* `Run.any_contains_insert`: it adds exactly the code points of the new run.
-/

namespace LineSearch

/-- The code points from `first` up to `last`, both included. -/
structure Run where
  first : Nat
  last : Nat
  deriving DecidableEq, Repr

namespace Run

variable {r s : Run} {rs : List Run}

def contains (r : Run) (n : Nat) : Bool :=
  r.first ≤ n && n ≤ r.last

/-- The number of code points in a run. -/
def length (r : Run) : Nat :=
  r.last + 1 - r.first

/-- The characters of a run, in order. -/
def chars (r : Run) : List Char :=
  (List.range' r.first r.length).map Char.ofNat

/-- The run is not empty and each of its code points is a character. -/
def Valid (r : Run) : Prop :=
  r.first ≤ r.last ∧ (r.last < 0xD800 ∨ 0xDFFF < r.first ∧ r.last < 0x110000)

/-- Adds a run to runs in increasing order; runs that overlap or touch it merge with it. -/
def insert (r : Run) : List Run → List Run
  | [] => [r]
  | s :: rs =>
    if r.last + 1 < s.first then r :: s :: rs
    else if s.last + 1 < r.first then s :: insert r rs
    else insert ⟨min r.first s.first, max r.last s.last⟩ rs

/-- Valid runs in increasing order, any two of them with a gap between. -/
structure Canonical (rs : List Run) : Prop where
  valid : ∀ r ∈ rs, r.Valid
  separated : rs.Pairwise fun r s => r.last + 1 < s.first

theorem canonical_nil : Canonical [] :=
  ⟨by simp, .nil⟩

/-- Two runs that overlap or touch lie on one side of the surrogates, so what they merge to is
valid too. -/
theorem Valid.merge (hr : r.Valid) (hs : s.Valid) (h : ¬ r.last + 1 < s.first)
    (h' : ¬ s.last + 1 < r.first) : Valid ⟨min r.first s.first, max r.last s.last⟩ := by
  simp only [Valid] at *
  omega

/-- What comes before `r` and before all of `rs` comes before all of `insert r rs`. -/
theorem lt_of_mem_insert {n : Nat} (hr : n < r.first) (hrs : ∀ s ∈ rs, n < s.first) :
    ∀ t ∈ insert r rs, n < t.first := by
  fun_induction insert r rs with
  | case1 => simpa using hr
  | case2 r s rs h => simpa using ⟨hr, by simpa using hrs⟩
  | case3 r s rs h h' ih =>
    simp only [List.mem_cons, forall_eq_or_imp] at hrs ⊢
    exact ⟨hrs.1, ih hr hrs.2⟩
  | case4 r s rs h h' ih =>
    simp only [List.mem_cons, forall_eq_or_imp] at hrs
    exact ih (by simp only; omega) hrs.2

theorem canonical_insert (hr : r.Valid) (hrs : Canonical rs) : Canonical (insert r rs) := by
  obtain ⟨hv, hp⟩ := hrs
  fun_induction insert r rs with
  | case1 r => exact ⟨by simpa using hr, List.pairwise_singleton _ _⟩
  | case2 r s rs h =>
    simp only [List.mem_cons, forall_eq_or_imp, List.pairwise_cons] at hv hp
    refine ⟨by simpa using ⟨hr, hv⟩, ?_⟩
    simp only [List.pairwise_cons, List.mem_cons, forall_eq_or_imp]
    refine ⟨⟨h, fun t ht => ?_⟩, hp⟩
    have h1 := hp.1 t ht
    have h2 := hv.1.1
    omega
  | case3 r s rs h h' ih =>
    simp only [List.mem_cons, forall_eq_or_imp, List.pairwise_cons] at hv hp
    obtain ⟨iv, ip⟩ := ih hr hv.2 hp.2
    exact ⟨by simpa using ⟨hv.1, iv⟩,
      List.pairwise_cons.2 ⟨lt_of_mem_insert h' hp.1, ip⟩⟩
  | case4 r s rs h h' ih =>
    simp only [List.mem_cons, forall_eq_or_imp, List.pairwise_cons] at hv hp
    exact ih (hr.merge hv.1 h h') hv.2 hp.2

theorem any_contains_insert (hr : r.Valid) (hrs : ∀ s ∈ rs, s.Valid) (n : Nat) :
    (insert r rs).any (·.contains n) = (r.contains n || rs.any (·.contains n)) := by
  fun_induction insert r rs with
  | case1 => rfl
  | case2 => rfl
  | case3 r s rs h h' ih =>
    simp only [List.mem_cons, forall_eq_or_imp] at hrs
    simp only [List.any_cons, ih hr hrs.2, Bool.or_left_comm]
  | case4 r s rs h h' ih =>
    simp only [List.mem_cons, forall_eq_or_imp] at hrs
    have hmerge : contains ⟨min r.first s.first, max r.last s.last⟩ n =
        (r.contains n || s.contains n) := by
      have h1 := hr.1
      have h2 := hrs.1.1
      rw [Bool.eq_iff_iff]
      simp only [contains, Bool.or_eq_true, Bool.and_eq_true, decide_eq_true_eq]
      omega
    rw [ih (hr.merge hrs.1 h h') hrs.2, hmerge, List.any_cons, Bool.or_assoc]

end Run

end LineSearch
