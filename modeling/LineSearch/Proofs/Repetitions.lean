import LineSearch.Proofs.Boundaries

/-!
# The repetitions of a group

A group with `+` is repeated from where it ended before, for as long as it moves on.

* `Idle`: an alternative that does not move on; `IsRepetition`: one repetition, by the first
  alternative that does.
* `isRepetition_or_idle`: from a boundary there is a repetition, or all alternatives are idle.
* `Loop`: the repetitions from an offset on, up to where all alternatives are idle.
* `exists_loop`: there are such repetitions, because no match ends past the end of the line;
  `Loop.chain_eq`: the matcher finds them.
* `RepetitionList`: where the repetitions end and what they capture; `Loop.repetitionList`.
* `repetitions_maximal`: what the matcher does with them.
-/

namespace LineSearch

variable {s : Subject} {alternatives : List (List Piece)} {part rest : List Piece}
  {number : Option GroupNumber} {t u v : Captures} {k m p e fuel : Nat}
  {reps : List (Nat × Captures)}

/-! ## One repetition -/

/-- From offset `k` and captures `t` an alternative fails or ends where it began. -/
def Idle (s : Subject) (t : Captures) (k : Nat) (part : List Piece) : Prop :=
  matchPieces s part k t = .failed ∨ ∃ u, matchPieces s part k t = .matched k u

/-- The first alternative that moves on from offset `k` with the captures `t` leads to offset `m`
and leaves the captures `v`. -/
def IsRepetition (s : Subject) (alternatives : List (List Piece)) (t : Captures) (k m : Nat)
    (v : Captures) : Prop :=
  ∃ earlier part later, alternatives = earlier ++ part :: later ∧
    matchPieces s part k t = .matched m v ∧ k < m ∧ ∀ a ∈ earlier, Idle s t k a

/-- What is idle is passed over. -/
theorem Idle.andThen_advance (h : Idle s t k part) :
    (matchPieces s part k t).andThen (advance k) = .failed := by
  rcases h with h | ⟨u, h⟩
  · rw [h, Outcome.failed_andThen]
  · rw [h, Outcome.matched_andThen, advance, if_neg (Nat.lt_irrefl k)]

theorem matchAlternatives_of_idle (h : ∀ a ∈ alternatives, Idle s t k a) :
    matchAlternatives s alternatives k t (advance k) = .failed := by
  induction alternatives with
  | nil => rfl
  | cons part alternatives ih =>
    rw [matchAlternatives, (h part List.mem_cons_self).andThen_advance, Outcome.failed_orElse]
    exact ih fun a ha => h a (List.mem_cons_of_mem _ ha)

theorem IsRepetition.matchAlternatives_eq (h : IsRepetition s alternatives t k m v) :
    matchAlternatives s alternatives k t (advance k) = .matched m v := by
  obtain ⟨earlier, part, later, rfl, hmatch, hlt, hidle⟩ := h
  induction earlier with
  | nil =>
    rw [List.nil_append, matchAlternatives, hmatch, Outcome.matched_andThen, advance, if_pos hlt,
      Outcome.matched_orElse]
  | cons a earlier ih =>
    rw [List.cons_append, matchAlternatives, (hidle a List.mem_cons_self).andThen_advance,
      Outcome.failed_orElse]
    exact ih fun b hb => hidle b (List.mem_cons_of_mem _ hb)

/-- **From a boundary there is a repetition, or all alternatives are idle.** -/
theorem isRepetition_or_idle (alternatives : List (List Piece)) (t : Captures)
    (hk : k ∈ s.starts) :
    (∃ m v, IsRepetition s alternatives t k m v) ∨ ∀ a ∈ alternatives, Idle s t k a := by
  induction alternatives with
  | nil => exact .inr fun a ha => absurd ha List.not_mem_nil
  | cons part alternatives ih =>
    obtain ⟨hne, hpositions⟩ := (matchPieces_positions s part k t).1 hk
    -- a match does not end before it began
    have hpart : (∃ m v, matchPieces s part k t = .matched m v ∧ k < m) ∨ Idle s t k part := by
      cases hmatch : matchPieces s part k t with
      | offBoundary => exact absurd hmatch hne
      | failed => exact .inr (.inl hmatch)
      | matched m v =>
        have hle := (hpositions m v hmatch).1
        rcases Nat.eq_or_lt_of_le hle with rfl | hlt
        · exact .inr (.inr ⟨v, hmatch⟩)
        · exact .inl ⟨m, v, rfl, hlt⟩
    rcases hpart with ⟨m, v, hmatch, hlt⟩ | hidle
    · exact .inl ⟨m, v, [], part, alternatives, rfl, hmatch, hlt, by simp⟩
    · rcases ih with ⟨m, v, earlier, part', later, rfl, hmatch, hlt, hearlier⟩ | hall
      · exact .inl ⟨m, v, part :: earlier, part', later, rfl, hmatch, hlt,
          List.forall_mem_cons.2 ⟨hidle, hearlier⟩⟩
      · exact .inr (List.forall_mem_cons.2 ⟨hidle, hall⟩)

theorem IsRepetition.lt (h : IsRepetition s alternatives t k m v) : k < m := by
  obtain ⟨_, _, _, -, -, hlt, -⟩ := h
  exact hlt

theorem IsRepetition.mem_starts (h : IsRepetition s alternatives t k m v) (hk : k ∈ s.starts) :
    m ∈ s.starts := by
  obtain ⟨_, part, _, -, hmatch, -, -⟩ := h
  exact (((matchPieces_positions s part k t).1 hk).2 m v hmatch).2.2.1

/-! ## All repetitions -/

/-- The repetitions of a group from offset `k` on, each of them with the captures `t`: where they
end and what they capture. After the last one no alternative moves on. -/
inductive Loop (s : Subject) (alternatives : List (List Piece)) (t : Captures) :
    Nat → List (Nat × Captures) → Prop
  | stop {k : Nat} (h : ∀ a ∈ alternatives, Idle s t k a) : Loop s alternatives t k []
  | step {k m : Nat} {v : Captures} {reps : List (Nat × Captures)}
    (h : IsRepetition s alternatives t k m v) (hreps : Loop s alternatives t m reps) :
    Loop s alternatives t k ((m, v) :: reps)

/-- **The loop stops:** each repetition takes a byte at least of those that are left. -/
theorem exists_loop (alternatives : List (List Piece)) (t : Captures) (hk : k ∈ s.starts) :
    ∃ reps, Loop s alternatives t k reps := by
  induction hn : s.size - k using Nat.strongRecOn generalizing k with
  | _ n ih =>
    subst hn
    rcases isRepetition_or_idle alternatives t hk with ⟨m, v, h⟩ | hidle
    · have hlt := h.lt
      have hm := h.mem_starts hk
      have hle := Subject.le_size_of_mem_starts hm
      obtain ⟨reps, hreps⟩ := ih (s.size - m) (by omega) hm rfl
      exact ⟨(m, v) :: reps, .step h hreps⟩
    · exact ⟨[], .stop hidle⟩

namespace Loop

/-- **The matcher finds these repetitions,** however often it may repeat a group beyond the number
of bytes that are left. -/
theorem chain_eq (h : Loop s alternatives t k reps) (hk : k ∈ s.starts)
    (hfuel : s.size - k < fuel) :
    chain (fun k => matchAlternatives s alternatives k t (advance k)) fuel k = some reps := by
  induction h generalizing fuel with
  | stop hidle =>
    obtain ⟨fuel, rfl⟩ : ∃ f, fuel = f + 1 := ⟨fuel - 1, by omega⟩
    simp only [chain, matchAlternatives_of_idle hidle]
  | step h _ ih =>
    have hlt := h.lt
    have hm := h.mem_starts hk
    have hle := Subject.le_size_of_mem_starts hm
    obtain ⟨fuel, rfl⟩ : ∃ f, fuel = f + 1 := ⟨fuel - 1, by omega⟩
    simp only [chain, h.matchAlternatives_eq]
    rw [ih hm (by omega)]
    rfl

/-- The ends of the repetitions come one after another. -/
theorem increasing (h : Loop s alternatives t k reps) :
    (k :: reps.map Prod.fst).Pairwise (· < ·) := by
  induction h with
  | stop => exact List.pairwise_singleton _ _
  | step h _ ih =>
    have hlt := h.lt
    refine List.pairwise_cons.2 ⟨?_, ih⟩
    intro n hn
    rcases List.mem_cons.1 hn with rfl | hn
    · exact hlt
    · exact Nat.lt_trans hlt ((List.pairwise_cons.1 ih).1 n hn)

theorem mem_starts (h : Loop s alternatives t k reps) (hk : k ∈ s.starts) :
    ∀ rep ∈ reps, rep.1 ∈ s.starts := by
  induction h with
  | stop => exact fun rep hrep => absurd hrep List.not_mem_nil
  | step h _ ih =>
    have hm := h.mem_starts hk
    exact List.forall_mem_cons.2 ⟨hm, ih hm⟩

end Loop

/-- Further on there are fewer characters left. -/
theorem Subject.length_ahead_lt {ahead ahead' : List Char} (h : s.ahead k = some ahead)
    (h' : s.ahead m = some ahead') (hlt : k < m) : ahead'.length < ahead.length := by
  rw [ahead_eq, Text.suffixAt_eq_some_iff] at h h'
  obtain ⟨l, htext, hl⟩ := h
  obtain ⟨l', htext', hl'⟩ := h'
  obtain ⟨w, rfl⟩ : l <+: l' :=
    Text.prefix_of_size_le ⟨ahead, htext.symm⟩ ⟨ahead', htext'.symm⟩ (by omega)
  have hahead : ahead = w ++ ahead' := by
    rw [htext, List.append_assoc] at htext'
    exact List.append_cancel_left htext'
  rw [Text.size_append] at hl'
  cases w with
  | nil =>
    rw [Text.size_nil] at hl'
    omega
  | cons c w =>
    rw [hahead, List.length_append, List.length_cons]
    omega

theorem Loop.length_le (h : Loop s alternatives t k reps) (hk : k ∈ s.starts) {ahead : List Char}
    (hahead : s.ahead k = some ahead) : reps.length ≤ ahead.length := by
  induction h generalizing ahead with
  | stop => exact Nat.zero_le _
  | step h _ ih =>
    have hm := h.mem_starts hk
    obtain ⟨ahead', hahead'⟩ := Subject.mem_starts_iff.1 hm
    have hlt := Subject.length_ahead_lt hahead hahead' h.lt
    have hle := ih hm hahead'
    rw [List.length_cons]
    omega

/-- Where some repetitions from offset `p` on end. -/
def lastEnd (p : Nat) (reps : List (Nat × Captures)) : Nat :=
  (reps.map Prod.fst).getLastD p

@[simp] theorem lastEnd_nil (p : Nat) : lastEnd p [] = p := rfl

@[simp] theorem lastEnd_cons (p : Nat) (rep : Nat × Captures) (reps : List (Nat × Captures)) :
    lastEnd p (rep :: reps) = lastEnd rep.1 reps := by
  unfold lastEnd
  rw [List.map_cons, List.getLastD_cons]

/-- **The repetitions of a group** from offset `p` on with the captures `t`: where they end and what
they capture. -/
structure RepetitionList (s : Subject) (alternatives : List (List Piece)) (p : Nat) (t : Captures)
    (reps : List (Nat × Captures)) : Prop where
  increasing : (p :: reps.map Prod.fst).Pairwise (· < ·)
  boundary : ∀ rep ∈ reps, rep.1 ∈ s.starts ∧ rep.1 ≤ s.size
  /-- There are no more of them than characters left. -/
  length_le : ∀ ahead, s.ahead p = some ahead → reps.length ≤ ahead.length
  /-- Each begins where the one before it ended, and with the captures `t` again. -/
  repetition : ∀ before m v after, reps = before ++ (m, v) :: after →
    IsRepetition s alternatives t (lastEnd p before) m v
  /-- After the last one no alternative moves on. -/
  idle : ∀ a ∈ alternatives, Idle s t (lastEnd p reps) a

theorem Loop.repetition (h : Loop s alternatives t k reps) {before after : List (Nat × Captures)}
    (heq : reps = before ++ (m, v) :: after) :
    IsRepetition s alternatives t (lastEnd k before) m v := by
  induction h generalizing before with
  | stop => simp at heq
  | step h _ ih =>
    cases before with
    | nil =>
      obtain ⟨hrep, -⟩ := List.cons.inj heq
      cases hrep
      exact h
    | cons rep before =>
      obtain ⟨rfl, hreps⟩ := List.cons.inj heq
      rw [lastEnd_cons]
      exact ih hreps

theorem Loop.idle (h : Loop s alternatives t k reps) :
    ∀ a ∈ alternatives, Idle s t (lastEnd k reps) a := by
  induction h with
  | stop hidle => exact hidle
  | step _ _ ih =>
    rw [lastEnd_cons]
    exact ih

theorem Loop.repetitionList (h : Loop s alternatives t p reps) (hp : p ∈ s.starts) :
    RepetitionList s alternatives p t reps where
  increasing := h.increasing
  boundary := fun rep hrep =>
    ⟨h.mem_starts hp rep hrep, Subject.le_size_of_mem_starts (h.mem_starts hp rep hrep)⟩
  length_le := fun _ hahead => h.length_le hp hahead
  repetition := fun _ _ _ _ heq => h.repetition heq
  idle := h.idle

/-! ## The repetition that is taken -/

theorem tryEach_eq_failed_iff {α : Type} {next : α → Outcome} {as : List α} :
    tryEach next as = .failed ↔ ∀ a ∈ as, next a = .failed := by
  induction as with
  | nil => simp
  | cons a as ih => rw [tryEach_cons, Outcome.orElse_eq_failed_iff, ih, List.forall_mem_cons]

/-- **The first candidate that does not fail** is taken. -/
theorem tryEach_eq_matched_iff {α : Type} {next : α → Outcome} {as : List α} :
    tryEach next as = .matched e u ↔
      ∃ before a after, as = before ++ a :: after ∧ next a = .matched e u ∧
        ∀ b ∈ before, next b = .failed := by
  induction as with
  | nil => simp
  | cons a as ih =>
    rw [tryEach_cons, Outcome.orElse_eq_matched_iff, ih]
    constructor
    · rintro (h | ⟨h, before, b, after, rfl, hb, hbefore⟩)
      · exact ⟨[], a, as, rfl, h, by simp⟩
      · exact ⟨a :: before, b, after, rfl, hb, List.forall_mem_cons.2 ⟨h, hbefore⟩⟩
    · rintro ⟨before, b, after, heq, hb, hbefore⟩
      cases before with
      | nil =>
        obtain ⟨rfl, -⟩ := List.cons.inj heq
        exact .inl hb
      | cons c before =>
        obtain ⟨rfl, rfl⟩ := List.cons.inj heq
        obtain ⟨hc, hbefore⟩ := List.forall_mem_cons.1 hbefore
        exact .inr ⟨hc, before, b, after, rfl, hb, hbefore⟩

/-- Going on after a repetition that began at offset `p`: the group notes its span, and the rest of
the pieces follows. -/
def commit (s : Subject) (number : Option GroupNumber) (rest : List Piece) (p : Nat)
    (rep : Nat × Captures) : Outcome :=
  matchPieces s rest rep.1 (rep.2.note number ⟨p, rep.1⟩)

theorem matchPieces_repeated (h : repetitions s alternatives p t = some reps) :
    matchPieces s (.group number alternatives .plus :: rest) p t =
      tryEach (commit s number rest p) reps.reverse := by
  rw [matchPieces, matchPiece_group_plus, h]
  rfl

/-- **The loop over the repetitions of a group stops, and no sooner than it has to.** From a
boundary it gives a list of repetitions, whatever the captures: their ends are boundaries that come
one after another and after the offset that the group begins at, so there are no more of them than
characters left; each is what the first alternative that moves on from the end before it leaves,
with the captures that the group begins with; and from the last end no alternative moves on. That
the loop counts its rounds has no part in this. The group matches exactly if there is a repetition
after which the rest of the pieces matches, and then the last such repetition is taken. -/
theorem repetitions_maximal (s : Subject) (number : Option GroupNumber)
    (alternatives : List (List Piece)) (rest : List Piece) (p : Nat) (t : Captures)
    (hp : p ∈ s.starts) :
    ∃ reps, repetitions s alternatives p t = some reps ∧
      RepetitionList s alternatives p t reps ∧
      (∀ fuel, s.size - p < fuel →
        chain (fun k => matchAlternatives s alternatives k t (advance k)) fuel p = some reps) ∧
      ((∃ e u, matchPieces s (.group number alternatives .plus :: rest) p t = .matched e u) ↔
        ∃ rep ∈ reps, ∃ e u, commit s number rest p rep = .matched e u) ∧
      ∀ e u, matchPieces s (.group number alternatives .plus :: rest) p t = .matched e u ↔
        ∃ before rep after, reps = before ++ rep :: after ∧
          commit s number rest p rep = .matched e u ∧
          ∀ later ∈ after, commit s number rest p later = .failed := by
  obtain ⟨reps, hloop⟩ := exists_loop alternatives t hp
  have hchain := fun fuel (hfuel : s.size - p < fuel) => hloop.chain_eq hp hfuel
  have hreps : repetitions s alternatives p t = some reps := hchain _ (by omega)
  have hlast : ∀ e u,
      matchPieces s (.group number alternatives .plus :: rest) p t = .matched e u ↔
        ∃ before rep after, reps = before ++ rep :: after ∧
          commit s number rest p rep = .matched e u ∧
          ∀ later ∈ after, commit s number rest p later = .failed := by
    intro e u
    rw [matchPieces_repeated hreps, tryEach_eq_matched_iff]
    constructor
    · rintro ⟨before, rep, after, heq, hrep, hbefore⟩
      refine ⟨after.reverse, rep, before.reverse, ?_, hrep, fun b hb => ?_⟩
      · rw [← List.reverse_reverse reps, heq]
        simp
      · exact hbefore b (List.mem_reverse.1 hb)
    · rintro ⟨before, rep, after, rfl, hrep, hafter⟩
      exact ⟨after.reverse, rep, before.reverse, by simp, hrep,
        fun b hb => hafter b (List.mem_reverse.1 hb)⟩
  refine ⟨reps, hreps, hloop.repetitionList hp, hchain, ?_, hlast⟩
  constructor
  · rintro ⟨e, u, h⟩
    obtain ⟨before, rep, after, rfl, hrep, -⟩ := (hlast e u).1 h
    exact ⟨rep, by simp, e, u, hrep⟩
  · rintro ⟨rep, hmem, e, u, hrep⟩
    cases h : matchPieces s (.group number alternatives .plus :: rest) p t with
    | offBoundary => exact absurd h (matchPieces_ne_offBoundary hp)
    | failed =>
      rw [matchPieces_repeated hreps, tryEach_eq_failed_iff] at h
      rw [h rep (List.mem_reverse.2 hmem)] at hrep
      cases hrep
    | matched e' u' => exact ⟨e', u', rfl⟩

/-- A group whose first alternative is empty and whose last one may be: it moves on with the others,
until none does, and gives back the last repetition. -/
theorem repetitions_maximal_zero_width :
    0 ∈ (Subject.ofString "éébé").starts ∧
      repetitions (.ofString "éébé")
          [[], [.atom (.literal 'é') .one], [.atom (.literal 'b') .optional]] 0 .empty =
        some [(2, .empty), (4, .empty), (5, .empty), (7, .empty)] ∧
      RepetitionList (.ofString "éébé")
        [[], [.atom (.literal 'é') .one], [.atom (.literal 'b') .optional]] 0 .empty
        [(2, .empty), (4, .empty), (5, .empty), (7, .empty)] ∧
      matchPieces (.ofString "éébé")
          [.group (some 1)
            [[], [.atom (.literal 'é') .one], [.atom (.literal 'b') .optional]] .plus,
            .atom (.literal 'é') .one] 0 .empty = .matched 7 ⟨[some ⟨0, 5⟩]⟩ ∧
      ∃ before rep after,
        [(2, .empty), (4, .empty), (5, .empty), (7, Captures.empty)] = before ++ rep :: after ∧
          commit (.ofString "éébé") (some 1) [.atom (.literal 'é') .one] 0 rep =
            .matched 7 ⟨[some ⟨0, 5⟩]⟩ ∧
          ∀ later ∈ after,
            commit (.ofString "éébé") (some 1) [.atom (.literal 'é') .one] 0 later = .failed := by
  have hp : 0 ∈ (Subject.ofString "éébé").starts := Subject.zero_mem_starts
  have hreps : repetitions (.ofString "éébé")
      [[], [.atom (.literal 'é') .one], [.atom (.literal 'b') .optional]] 0 .empty =
        some [(2, .empty), (4, .empty), (5, .empty), (7, .empty)] := by decide
  have hmatch : matchPieces (.ofString "éébé")
      [.group (some 1) [[], [.atom (.literal 'é') .one], [.atom (.literal 'b') .optional]] .plus,
        .atom (.literal 'é') .one] 0 .empty = .matched 7 ⟨[some ⟨0, 5⟩]⟩ := by decide
  obtain ⟨reps, heq, hlist, -, -, htaken⟩ := repetitions_maximal (.ofString "éébé") (some 1)
    [[], [.atom (.literal 'é') .one], [.atom (.literal 'b') .optional]]
    [.atom (.literal 'é') .one] 0 .empty hp
  rw [hreps] at heq
  cases heq
  exact ⟨hp, hreps, hlist, hmatch, (htaken _ _).1 hmatch⟩

end LineSearch
