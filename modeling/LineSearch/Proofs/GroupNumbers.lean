import LineSearch.Proofs.CanonicalText
import LineSearch.Session

/-!
# The numbers of groups

Groups are numbered in the order of their opening parentheses, and a program goes on from the
numbers that are taken already.

* `sequence_numberPieces`: numbering leaves the tree of groups as it is.
* `numberPieces_countUp`: the numbers of a sequence count on from those that are taken.
* `renumber`, `numberPieces_add`: with more numbers taken, all numbers are that much higher.
* `Session.Apart`: no two programs of a session share a number; `Session.Apart.step` and
  `Session.Apart.after`: so it stays while programs count on from each other.
* `compile_groupNumbers`: the numbers of a program, and of the programs of a session.
-/

namespace LineSearch

variable {pieces part seq : List Piece} {alternatives : List (List Piece)} {piece : Piece}
  {number : Option GroupNumber} {q : Quantifier} {k taken : Nat}

section Tree

open Piece

/-- The numbering of a sequence is that of its pieces one by one. -/
theorem mem_numberPieces (h : piece ∈ (numberPieces taken pieces).1) :
    ∃ piece₀ ∈ pieces, ∃ k, piece = (piece₀.number k).1 := by
  induction pieces generalizing taken with
  | nil => cases h
  | cons piece₀ rest ih =>
    unfold numberPieces at h
    rcases List.mem_cons.1 h with h | h
    · exact ⟨piece₀, List.mem_cons_self, taken, h⟩
    · obtain ⟨piece₁, hmem, hk⟩ := ih h
      exact ⟨piece₁, List.mem_cons_of_mem _ hmem, hk⟩

theorem mem_numberAlternatives (h : part ∈ (numberAlternatives taken alternatives).1) :
    ∃ part₀ ∈ alternatives, ∃ k, part = (numberPieces k part₀).1 := by
  induction alternatives generalizing taken with
  | nil => cases h
  | cons part₀ alternatives ih =>
    unfold numberAlternatives at h
    rcases List.mem_cons.1 h with h | h
    · exact ⟨part₀, List.mem_cons_self, taken, h⟩
    · obtain ⟨part₁, hmem, hk⟩ := ih h
      exact ⟨part₁, List.mem_cons_of_mem _ hmem, hk⟩

/-- A group among numbered pieces has a number, and its alternatives are numbered ones. -/
theorem group_mem_numberPieces (h : .group number alternatives q ∈ (numberPieces taken pieces).1) :
    ∃ number₀ alternatives₀ k, .group number₀ alternatives₀ q ∈ pieces ∧ number = some (.next k) ∧
      alternatives = (numberAlternatives (k + 1) alternatives₀).1 := by
  obtain ⟨piece₀, hmem, k, heq⟩ := mem_numberPieces h
  cases piece₀ with
  | atom x q => cases heq
  | backref n q => cases heq
  | group number₀ alternatives₀ q₀ =>
    cases heq
    exact ⟨number₀, alternatives₀, k, hmem, rfl, rfl⟩

/-- **Numbering keeps the tree of groups:** the sequences that stand in numbered pieces are the
numbered sequences of the pieces. -/
theorem sequence_numberPieces (h : Sequence (numberPieces taken pieces).1 seq) :
    ∃ seq₀ k, Sequence pieces seq₀ ∧ seq = (numberPieces k seq₀).1 := by
  induction h with
  | whole => exact ⟨pieces, taken, .whole, rfl⟩
  | alternative hs hg hp ih =>
    obtain ⟨seq₀, k, hs₀, rfl⟩ := ih
    obtain ⟨number₀, alternatives₀, k', hg₀, -, rfl⟩ := group_mem_numberPieces hg
    obtain ⟨part₀, hp₀, k'', rfl⟩ := mem_numberAlternatives hp
    exact ⟨part₀, k'', .alternative hs₀ hg₀ hp₀, rfl⟩

/-- After numbering, every group at any depth has a number. -/
theorem occurs_numbered (h : Occurs (.group number alternatives q) (numberPieces taken pieces).1) :
    ∃ g, number = some g := by
  obtain ⟨seq, hs, hmem⟩ := h
  obtain ⟨seq₀, k, -, rfl⟩ := sequence_numberPieces hs
  obtain ⟨-, -, k', -, hnumber, -⟩ := group_mem_numberPieces hmem
  exact ⟨.next k', hnumber⟩

end Tree

section Order

open Piece

/-- The numbers of some pieces count on from `taken` up to `last`. -/
def CountUp (taken last : Nat) (ns : List Nat) : Prop :=
  CountOn taken ns ∧ last = taken + ns.length

theorem CountUp.nil (taken : Nat) : CountUp taken taken [] :=
  ⟨rfl, rfl⟩

theorem CountUp.append {m n : Nat} {ms ns : List Nat} (hms : CountUp taken m ms)
    (hns : CountUp m n ns) : CountUp taken n (ms ++ ns) := by
  obtain ⟨hms, rfl⟩ := hms
  obtain ⟨hns, rfl⟩ := hns
  refine ⟨countOn_append.2 ⟨hms, hns⟩, ?_⟩
  rw [List.length_append, Nat.add_assoc]

theorem CountUp.cons {n : Nat} {ns : List Nat} (h : CountUp (taken + 1) n ns) :
    CountUp taken n ((taken + 1) :: ns) := by
  obtain ⟨hns, rfl⟩ := h
  refine ⟨countOn_cons.2 ⟨rfl, hns⟩, ?_⟩
  rw [List.length_cons]
  omega

theorem numberAlternatives_countUp
    (h : ∀ part ∈ alternatives, ∀ taken,
      CountUp taken (numberPieces taken part).2 (numbers (numberPieces taken part).1))
    (taken : Nat) :
    CountUp taken (numberAlternatives taken alternatives).2
      ((numberAlternatives taken alternatives).1.flatMap numbers) := by
  induction alternatives generalizing taken with
  | nil => exact .nil taken
  | cons part alternatives ih =>
    have hpart := h part List.mem_cons_self taken
    have hparts := ih (fun b hb => h b (List.mem_cons_of_mem _ hb)) (numberPieces taken part).2
    rw [numberAlternatives_cons]
    exact hpart.append hparts

/-- **The numbers of a sequence count on from those that are taken,** in the order of the opening
parentheses. -/
theorem numberPieces_countUp (taken : Nat) (pieces : List Piece) :
    CountUp taken (numberPieces taken pieces).2 (numbers (numberPieces taken pieces).1) := by
  induction pieces using pieces_induction generalizing taken with
  | nil => exact .nil taken
  | atom x q rest ih =>
    rw [numberPieces_atom]
    exact ih taken
  | backref n q rest ih =>
    rw [numberPieces_backref]
    exact ih taken
  | group number alternatives q rest iha ih =>
    -- the group takes the next number, then the groups inside it do, then those after it
    have hinside := numberAlternatives_countUp iha (taken + 1)
    have hafter := ih (numberAlternatives (taken + 1) alternatives).2
    rw [numberPieces_group]
    simp only [numbers_cons, numbers_group]
    exact (hinside.append hafter).cons

end Order

/-- A number with `k` added to it. -/
def GroupNumber.add (k : Nat) (g : GroupNumber) : GroupNumber :=
  ⟨k + g, Nat.add_pos_right k g.pos⟩

mutual
/-- A piece with `k` added to the number of every group, at any depth. -/
def Piece.renumber (k : Nat) : Piece → Piece
  | .atom x q => .atom x q
  | .backref n q => .backref n q
  | .group number alternatives q =>
    .group (number.map (.add k)) (renumberAlternatives k alternatives) q

/-- A sequence with `k` added to the number of every group. -/
def renumber (k : Nat) : List Piece → List Piece
  | [] => []
  | piece :: pieces => piece.renumber k :: renumber k pieces

/-- Alternatives with `k` added to the number of every group. -/
def renumberAlternatives (k : Nat) : List (List Piece) → List (List Piece)
  | [] => []
  | pieces :: alternatives => renumber k pieces :: renumberAlternatives k alternatives
end

section Renumber

open Piece

theorem numberAlternatives_add
    (h : ∀ part ∈ alternatives, ∀ taken, numberPieces (k + taken) part =
      (renumber k (numberPieces taken part).1, k + (numberPieces taken part).2))
    (taken : Nat) :
    numberAlternatives (k + taken) alternatives =
      (renumberAlternatives k (numberAlternatives taken alternatives).1,
        k + (numberAlternatives taken alternatives).2) := by
  induction alternatives generalizing taken with
  | nil => rfl
  | cons part alternatives ih =>
    have hpart := h part List.mem_cons_self taken
    have hparts := ih (fun b hb => h b (List.mem_cons_of_mem _ hb)) (numberPieces taken part).2
    rw [numberAlternatives_cons, numberAlternatives_cons, hpart]
    simp only [hparts]
    rfl

/-- **With `k` more numbers taken** every group gets a number that is `k` higher, and nothing else
changes. -/
theorem numberPieces_add (k taken : Nat) (pieces : List Piece) :
    numberPieces (k + taken) pieces =
      (renumber k (numberPieces taken pieces).1, k + (numberPieces taken pieces).2) := by
  induction pieces using pieces_induction generalizing taken with
  | nil => rfl
  | atom x q rest ih =>
    rw [numberPieces_atom, numberPieces_atom, ih]
    rfl
  | backref n q rest ih =>
    rw [numberPieces_backref, numberPieces_backref, ih]
    rfl
  | group number alternatives q rest iha ih =>
    have hinside := numberAlternatives_add (k := k) iha (taken + 1)
    have hafter := ih (numberAlternatives (taken + 1) alternatives).2
    rw [numberPieces_group, numberPieces_group, Nat.add_assoc, hinside]
    simp only [hafter]
    rfl

end Renumber

section Compile

variable {pattern pattern' : List Char} {g : Nat}

theorem compile_pieces (pattern : List Char) (taken : Nat) :
    (compile pattern taken).pieces = (Piece.numberPieces taken (parse (symbols pattern))).1 := rfl

theorem compile_countUp (pattern : List Char) (taken : Nat) :
    CountUp taken (compile pattern taken).groupCount (numbers (compile pattern taken).pieces) :=
  numberPieces_countUp taken (parse (symbols pattern))

theorem compile_renumber (pattern : List Char) (taken : Nat) :
    compile pattern taken =
      ⟨renumber taken (compile pattern 0).pieces, taken + (compile pattern 0).groupCount⟩ := by
  have hadd := numberPieces_add taken 0 (parse (symbols pattern))
  rw [Nat.add_zero] at hadd
  unfold compile
  rw [hadd]

/-- The numbers of a program are those after the numbers taken, up to its last one. -/
theorem mem_numbers_compile :
    g ∈ numbers (compile pattern taken).pieces ↔
      taken < g ∧ g ≤ (compile pattern taken).groupCount := by
  obtain ⟨hcount, hlast⟩ := compile_countUp pattern taken
  unfold CountOn at hcount
  rw [hcount, List.mem_range'_1, hlast]
  omega

end Compile

namespace Session

variable {session session' : Session} {a : Step} {answer : Answer}

/-- A step that compiles a program lets it count on from the one before. -/
def Step.CountsOn : Step → Prop
  | .compile _ _ taken => taken = none
  | _ => True

/-- The session after some steps. A step that fails leaves it as it was. -/
def after (session : Session) : List Step → Session
  | [] => session
  | step :: steps =>
    match session.step step with
    | .error _ => session.after steps
    | .ok (session, _) => session.after steps

theorem bind_eq_ok_iff {ε α β : Type} {x : Except ε α} {f : α → Except ε β} {b : β} :
    (x >>= f) = .ok b ↔ ∃ a, x = .ok a ∧ f a = .ok b := by
  cases x with
  | error e => simp [bind, Except.bind]
  | ok a => simp [bind, Except.bind]

/-- **What a step does to the programs:** it adds the one that it compiles, or nothing. -/
theorem step_programs (h : session.step a = .ok (session', answer)) :
    (session'.programs = session.programs ∧ session'.taken = session.taken) ∨
      ∃ name pattern taken, a = .compile name pattern taken ∧
        session'.programs = (name, (LineSearch.compile pattern.toList
          (taken.getD session.taken)).pieces) :: session.programs ∧
        session'.taken =
          (LineSearch.compile pattern.toList (taken.getD session.taken)).groupCount := by
  cases a with
  | compile name pattern taken =>
    cases h
    exact .inr ⟨name, pattern, taken, rfl, rfl, rfl⟩
  | find name line start =>
    obtain ⟨pieces, -, h⟩ := bind_eq_ok_iff.1 h
    left
    dsimp only at h
    split at h
    · cases h
    · cases h
      exact ⟨rfl, rfl⟩
  | get group line =>
    cases h
    exact .inl ⟨rfl, rfl⟩
  | clear =>
    cases h
    exact .inl ⟨rfl, rfl⟩
  | save name =>
    cases h
    exact .inl ⟨rfl, rfl⟩
  | load name =>
    obtain ⟨captures, -, h⟩ := bind_eq_ok_iff.1 h
    cases h
    exact .inl ⟨rfl, rfl⟩
  | same name =>
    obtain ⟨captures, -, h⟩ := bind_eq_ok_iff.1 h
    cases h
    exact .inl ⟨rfl, rfl⟩
  | samePrograms a b =>
    obtain ⟨pieces, -, h⟩ := bind_eq_ok_iff.1 h
    obtain ⟨others, -, h⟩ := bind_eq_ok_iff.1 h
    cases h
    exact .inl ⟨rfl, rfl⟩

/-- No two programs of a session share a group number, and all their numbers are taken. -/
structure Apart (session : Session) : Prop where
  taken : ∀ program ∈ session.programs, ∀ g ∈ numbers program.2, g ≤ session.taken
  disjoint : session.programs.Pairwise fun a b => List.Disjoint (numbers a.2) (numbers b.2)

theorem Apart.step (h : session.Apart) (hcount : a.CountsOn)
    (hstep : session.step a = .ok (session', answer)) : session'.Apart := by
  rcases step_programs hstep with
    ⟨hprograms, htaken⟩ | ⟨name, pattern, taken, rfl, hprograms, htaken⟩
  · refine ⟨?_, ?_⟩
    · rw [hprograms, htaken]
      exact h.taken
    · rw [hprograms]
      exact h.disjoint
  · -- the new program takes numbers after all that are taken
    have hnone : taken = none := hcount
    rw [hnone, Option.getD_none] at hprograms htaken
    have hle : session.taken ≤ session'.taken := by
      rw [htaken, (compile_countUp pattern.toList session.taken).2]
      exact Nat.le_add_right _ _
    refine ⟨?_, ?_⟩
    · rw [hprograms]
      intro program hmem g hg
      rcases List.mem_cons.1 hmem with rfl | hmem
      · rw [htaken]
        exact (mem_numbers_compile.1 hg).2
      · exact Nat.le_trans (h.taken program hmem g hg) hle
    · rw [hprograms]
      refine List.pairwise_cons.2 ⟨?_, h.disjoint⟩
      intro program hmem g hg hg'
      have hlt := (mem_numbers_compile.1 hg).1
      have hle := h.taken program hmem g hg'
      exact Nat.lt_irrefl _ (Nat.lt_of_lt_of_le hlt hle)

theorem Apart.after {steps : List Step} (h : session.Apart)
    (hcount : ∀ step ∈ steps, step.CountsOn) : (session.after steps).Apart := by
  induction steps generalizing session with
  | nil => exact h
  | cons step steps ih =>
    have hfirst := hcount step List.mem_cons_self
    have hrest : ∀ b ∈ steps, b.CountsOn := fun b hb => hcount b (List.mem_cons_of_mem _ hb)
    rw [Session.after]
    cases hstep : session.step step with
    | error e => exact ih h hrest
    | ok result => exact ih (h.step hfirst hstep) hrest

end Session

/-- **The numbers of a program.** Whatever numbers are taken, the groups of a pattern are numbered
from the next one up to the last number in use, none missing or repeated, each group before those
inside it. The program is the one that begins with no number taken, with all numbers moved on by the
numbers taken. So the programs of a session that count on from each other share no number. -/
theorem compile_groupNumbers :
    (∀ (pattern : List Char) (taken : Nat),
        taken ≤ (compile pattern taken).groupCount ∧
        numbers (compile pattern taken).pieces =
          List.range' (taken + 1) ((compile pattern taken).groupCount - taken) ∧
        (∀ number alternatives q,
          Occurs (.group number alternatives q) (compile pattern taken).pieces →
            ∃ g, number = some g) ∧
        compile pattern taken =
          ⟨renumber taken (compile pattern 0).pieces, taken + (compile pattern 0).groupCount⟩) ∧
      ∀ (session : Session) (steps : List Session.Step), session.programs = [] →
        (∀ step ∈ steps, step.CountsOn) →
        (session.after steps).programs.Pairwise fun a b =>
          List.Disjoint (numbers a.2) (numbers b.2) := by
  refine ⟨?_, ?_⟩
  · intro pattern taken
    obtain ⟨hcount, hlast⟩ := compile_countUp pattern taken
    have hlength : (compile pattern taken).groupCount - taken =
        (numbers (compile pattern taken).pieces).length := by omega
    refine ⟨by omega, ?_, fun number alternatives q h => occurs_numbered h,
      compile_renumber pattern taken⟩
    rw [hlength]
    exact hcount
  · intro session steps hempty hcount
    have hapart : session.Apart := by
      refine ⟨?_, ?_⟩
      · rw [hempty]
        intro program hmem
        cases hmem
      · rw [hempty]
        exact .nil
    exact (hapart.after hcount).disjoint

/-- A session with two numbers taken. A parenthesis that is never closed or that stands in a class
takes no number, and neither does a step that fails. -/
theorem compile_groupNumbers_unclosed :
    let session : Session := { Session.new with taken := 2 }
    let steps : List Session.Step :=
      [.compile "a" "((x)|(y))+(" none, .compile "b" "[(](z)" none, .load "none",
        .compile "a" "((é)" none]
    session.programs = [] ∧ (∀ step ∈ steps, step.CountsOn) ∧
      ((session.after steps).programs.map fun program => numbers program.2) =
        [[7], [6], [3, 4, 5]] ∧
      (session.after steps).programs.Pairwise fun a b =>
        List.Disjoint (numbers a.2) (numbers b.2) := by
  intro session steps
  have hempty : session.programs = [] := rfl
  have hcount : ∀ step ∈ steps, step.CountsOn := by simp [steps, Session.Step.CountsOn]
  refine ⟨hempty, hcount, ?_, compile_groupNumbers.2 session steps hempty hcount⟩
  decide +kernel

end LineSearch
