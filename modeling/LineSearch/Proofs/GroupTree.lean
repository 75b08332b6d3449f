import LineSearch.Pattern.Piece

/-!
# The tree of groups

The pieces of a pattern form a tree: a group holds alternatives, and each of these is a sequence
of pieces again.

* `pieces_induction`: induction over that tree.
* `GroupFree`: a sequence without groups.
* `numbers`: the numbers of the groups at any depth, a group before the groups inside it.
* `Sequence`: the sequences that stand in a pattern, the whole of it and every alternative.
* `Occurs`: the pieces in these sequences; `occurs_cons`: piece by piece.
-/

namespace LineSearch

/-- Induction over pieces: what holds of all alternatives of a group and of what follows the group
holds of the group with what follows it. -/
theorem pieces_induction {motive : List Piece → Prop} (nil : motive [])
    (atom : ∀ x q rest, motive rest → motive (.atom x q :: rest))
    (backref : ∀ n q rest, motive rest → motive (.backref n q :: rest))
    (group : ∀ number alternatives q rest, (∀ part ∈ alternatives, motive part) →
      motive rest → motive (.group number alternatives q :: rest)) :
    ∀ pieces, motive pieces
  | [] => nil
  | .atom x q :: rest => atom x q rest (pieces_induction nil atom backref group rest)
  | .backref n q :: rest => backref n q rest (pieces_induction nil atom backref group rest)
  | .group number alternatives q :: rest =>
    group number alternatives q rest
      (fun part _ => pieces_induction nil atom backref group part)
      (pieces_induction nil atom backref group rest)
termination_by pieces => sizeOf pieces
decreasing_by
  all_goals simp only [List.cons.sizeOf_spec, Piece.group.sizeOf_spec]
  · omega
  · omega
  · have := List.sizeOf_lt_of_mem ‹part ∈ alternatives›
    omega
  · omega

/-- There is no group among some pieces. -/
def GroupFree (pieces : List Piece) : Prop :=
  ∀ piece ∈ pieces, ∀ number alternatives q, piece ≠ .group number alternatives q

section GroupFree

variable {rest : List Piece} {x : Atom} {q : Quantifier} {n : Nat} {number : Option GroupNumber}
  {alternatives : List (List Piece)}

@[simp] theorem groupFree_nil : GroupFree [] := by
  intro piece h
  cases h

@[simp] theorem groupFree_atom : GroupFree (.atom x q :: rest) ↔ GroupFree rest := by
  simp [GroupFree]

@[simp] theorem groupFree_backref : GroupFree (.backref n q :: rest) ↔ GroupFree rest := by
  simp [GroupFree]

@[simp] theorem not_groupFree_group : ¬ GroupFree (.group number alternatives q :: rest) := by
  intro h
  exact h _ List.mem_cons_self _ _ _ rfl

end GroupFree

mutual
/-- The numbers of the groups in a piece. -/
def Piece.numbers : Piece → List Nat
  | .atom .. => []
  | .backref .. => []
  | .group number alternatives _ =>
    (number.map (·.val)).toList ++ numbersOfAlternatives alternatives

/-- The numbers of the groups in a sequence at any depth, a group before those inside it. -/
def numbers : List Piece → List Nat
  | [] => []
  | piece :: pieces => piece.numbers ++ numbers pieces

/-- The numbers of the groups in alternatives. -/
def numbersOfAlternatives : List (List Piece) → List Nat
  | [] => []
  | pieces :: alternatives => numbers pieces ++ numbersOfAlternatives alternatives
end

theorem numbersOfAlternatives_eq (alternatives : List (List Piece)) :
    numbersOfAlternatives alternatives = alternatives.flatMap numbers := by
  induction alternatives with
  | nil => rfl
  | cons part alternatives ih => rw [numbersOfAlternatives, ih, List.flatMap_cons]

theorem numbers_group (number : Option GroupNumber) (alternatives : List (List Piece))
    (q : Quantifier) :
    (Piece.group number alternatives q).numbers =
      (number.map (·.val)).toList ++ alternatives.flatMap numbers := by
  rw [Piece.numbers, numbersOfAlternatives_eq]

theorem self_mem_numbers {g : GroupNumber} {alternatives : List (List Piece)} {q : Quantifier} :
    g.val ∈ (Piece.group (some g) alternatives q).numbers := by
  rw [numbers_group]
  exact List.mem_append_left _ (List.mem_singleton_self g.val)

theorem numbers_eq_flatMap (pieces : List Piece) :
    numbers pieces = pieces.flatMap Piece.numbers := by
  induction pieces with
  | nil => rfl
  | cons piece pieces ih => rw [numbers, ih, List.flatMap_cons]

@[simp] theorem numbers_nil : numbers [] = [] := rfl

@[simp] theorem numbers_cons (piece : Piece) (rest : List Piece) :
    numbers (piece :: rest) = piece.numbers ++ numbers rest := rfl

@[simp] theorem numbers_atom (x : Atom) (q : Quantifier) : (Piece.atom x q).numbers = [] := rfl

@[simp] theorem numbers_backref (n : Nat) (q : Quantifier) : (Piece.backref n q).numbers = [] := rfl

theorem numbers_append (l r : List Piece) : numbers (l ++ r) = numbers l ++ numbers r := by
  simp only [numbers_eq_flatMap, List.flatMap_append]

/-- A sequence that stands in some pieces: these pieces, or an alternative of a group that stands
in such a sequence. -/
inductive Sequence (pieces : List Piece) : List Piece → Prop
  | whole : Sequence pieces pieces
  | alternative {seq number alternatives q part} (hs : Sequence pieces seq)
    (hg : .group number alternatives q ∈ seq) (hp : part ∈ alternatives) : Sequence pieces part

/-- A piece stands in some pieces, at any depth. -/
def Occurs (x : Piece) (pieces : List Piece) : Prop :=
  ∃ seq, Sequence pieces seq ∧ x ∈ seq

section Occurs

variable {x piece : Piece} {pieces rest part seq seq' : List Piece} {n : Nat} {a : Atom}
  {q : Quantifier} {number : Option GroupNumber} {alternatives : List (List Piece)}

theorem Sequence.trans (h : Sequence pieces seq) (h' : Sequence seq seq') :
    Sequence pieces seq' := by
  induction h' with
  | whole => exact h
  | alternative _ hg hp ih => exact .alternative ih hg hp

/-- A sequence in `piece :: rest` is the whole, or stands in the piece or in the rest. -/
theorem Sequence.cons_cases (h : Sequence (piece :: rest) seq) :
    seq = piece :: rest ∨
      (∃ number alternatives q, piece = .group number alternatives q ∧
        ∃ part ∈ alternatives, Sequence part seq) ∨
      ∃ number alternatives q, .group number alternatives q ∈ rest ∧
        ∃ part ∈ alternatives, Sequence part seq := by
  induction h with
  | whole => exact .inl rfl
  | @alternative seq number alternatives q part _ hg hp ih =>
    rcases ih with rfl | ⟨m, as, r, hm, part', hp', hs⟩ | ⟨m, as, r, hm, part', hp', hs⟩
    · rcases List.mem_cons.1 hg with hg | hg
      · exact .inr (.inl ⟨number, alternatives, q, hg.symm, part, hp, .whole⟩)
      · exact .inr (.inr ⟨number, alternatives, q, hg, part, hp, .whole⟩)
    · exact .inr (.inl ⟨m, as, r, hm, part', hp', .alternative hs hg hp⟩)
    · exact .inr (.inr ⟨m, as, r, hm, part', hp', .alternative hs hg hp⟩)

theorem occurs_of_mem (h : x ∈ pieces) : Occurs x pieces :=
  ⟨pieces, .whole, h⟩

theorem occurs_of_part (hg : .group number alternatives q ∈ pieces) (hp : part ∈ alternatives)
    (h : Occurs x part) : Occurs x pieces := by
  obtain ⟨seq, hs, hx⟩ := h
  exact ⟨seq, .trans (.alternative .whole hg hp) hs, hx⟩

@[simp] theorem not_occurs_nil : ¬ Occurs x [] := by
  rintro ⟨seq, hs, hx⟩
  have hnil : seq = [] := by
    clear hx
    induction hs with
    | whole => rfl
    | alternative _ hg _ ih => rw [ih] at hg; cases hg
  rw [hnil] at hx
  cases hx

/-- **What stands in `piece :: rest`:** the piece, what stands in it, and what stands in the
rest. -/
theorem occurs_cons : Occurs x (piece :: rest) ↔
    x = piece ∨
      (∃ number alternatives q, piece = .group number alternatives q ∧
        ∃ part ∈ alternatives, Occurs x part) ∨
      Occurs x rest := by
  constructor
  · rintro ⟨seq, hs, hx⟩
    rcases hs.cons_cases with rfl | ⟨m, as, r, hm, part, hp, hs⟩ | ⟨m, as, r, hm, part, hp, hs⟩
    · rcases List.mem_cons.1 hx with rfl | hx
      · exact .inl rfl
      · exact .inr (.inr (occurs_of_mem hx))
    · exact .inr (.inl ⟨m, as, r, hm, part, hp, seq, hs, hx⟩)
    · exact .inr (.inr (occurs_of_part hm hp ⟨seq, hs, hx⟩))
  · rintro (rfl | ⟨m, as, r, rfl, part, hp, h⟩ | ⟨seq, hs, hx⟩)
    · exact occurs_of_mem List.mem_cons_self
    · exact occurs_of_part List.mem_cons_self hp h
    · induction hs generalizing x with
      | whole => exact occurs_of_mem (List.mem_cons_of_mem _ hx)
      | alternative _ hg hp ih =>
        obtain ⟨seq', hs', hg'⟩ := ih hg
        exact ⟨_, .alternative hs' hg' hp, hx⟩

theorem Occurs.tail (h : Occurs x rest) : Occurs x (piece :: rest) :=
  occurs_cons.2 (.inr (.inr h))

@[simp] theorem occurs_atom :
    Occurs x (.atom a q :: rest) ↔ x = .atom a q ∨ Occurs x rest := by
  simp [occurs_cons]

@[simp] theorem occurs_backref :
    Occurs x (.backref n q :: rest) ↔ x = .backref n q ∨ Occurs x rest := by
  simp [occurs_cons]

@[simp] theorem occurs_group :
    Occurs x (.group number alternatives q :: rest) ↔
      x = .group number alternatives q ∨ (∃ part ∈ alternatives, Occurs x part) ∨
        Occurs x rest := by
  simp [occurs_cons, and_assoc]

end Occurs

end LineSearch
