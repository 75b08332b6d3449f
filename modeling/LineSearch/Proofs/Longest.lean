import Mathlib.Order.Bounds.Defs
import LineSearch.Proofs.Paths
import LineSearch.Proofs.Search

/-!
# Without groups the first match is the longest

* `Derives.overtake`: of two derivations of the same pieces the one that starts later can go on to
  end no earlier than the other. It follows its own way up to the piece where the other one
  overtakes it, and the way of the other one from there on.
* `head_paths_greatest`: so the first path ends furthest, although it only looks for the best first
  step.
* `groupFree_longest`: the search without groups is exact, and the test of the end anchor on the
  first match alone loses nothing.
-/

namespace LineSearch

variable {s : Subject} {pieces : List Piece} {p p' e e' : Nat} {t u u' : Captures}

/-- Without groups nothing is captured. -/
theorem Derives.captures_eq (hf : GroupFree pieces) (h : Derives s pieces p t e u) : u = t := by
  induction h with
  | nil => rfl
  | atom hx hw hr ih => exact ih (groupFree_atom.1 hf)
  | backref ht hw hr ih => exact ih (groupFree_backref.1 hf)
  | once => exact absurd hf not_groupFree_group
  | skip => exact absurd hf not_groupFree_group
  | repeated => exact absurd hf not_groupFree_group

/-- **Overtaking.** What starts later can end no earlier, if it can end at all. -/
theorem Derives.overtake (hf : GroupFree pieces) (h : Derives s pieces p t e u)
    (h' : Derives s pieces p' t e' u') (hp : p ≤ p') :
    ∃ a, e ≤ a ∧ Derives s pieces p' t a t := by
  induction pieces using pieces_induction generalizing p p' with
  | nil =>
    cases h
    exact ⟨p', hp, .nil⟩
  | atom x q rest ih =>
    rw [groupFree_atom] at hf
    cases h with
    | @atom _ _ w _ _ m _ _ _ hx hw hr =>
      cases h' with
      | @atom _ _ w' _ _ m' _ _ _ hx' hw' hr' =>
        rcases Nat.lt_or_ge m' m with hlt | hle
        · -- the first derivation overtakes the second one here: `p ≤ p' ≤ m' < m`
          have hpm' := Subject.le_of_slice hw'
          obtain ⟨w₁, w₂, rfl, -, hw₂⟩ :=
            Subject.slice_split hw (Subject.left_mem_starts hw') hp (by omega)
          have hpre : w' <+: w₂ := Subject.prefix_of_slices hw' hw₂ (by omega)
          have htakes : x.Takes q w₂ := by
            refine ⟨hx'.1.between hx.1 hpre.length_le ?_, ?_⟩
            · rw [List.length_append]; omega
            · intro c hc
              exact hx.2 c (List.mem_append_right _ hc)
          have hu := hr.captures_eq hf
          rw [hu] at hr
          exact ⟨e, Nat.le_refl e, .atom htakes hw₂ hr⟩
        · obtain ⟨a, ha, hd⟩ := ih hf hr hr' hle
          exact ⟨a, ha, .atom hx' hw' hd⟩
  | backref n q rest ih =>
    rw [groupFree_backref] at hf
    cases h with
    | @backref _ _ w _ _ m _ _ _ ht hw hr =>
      cases h' with
      | @backref _ _ w' _ _ m' _ _ _ ht' hw' hr' =>
        -- both take the same text
        have hww : w = w' := Option.some.inj (ht.symm.trans ht')
        have hm := Subject.add_size_of_slice hw
        have hm' := Subject.add_size_of_slice hw'
        rw [hww] at hm
        obtain ⟨a, ha, hd⟩ := ih hf hr hr' (by omega)
        exact ⟨a, ha, .backref ht' hw' hd⟩
  | group => exact absurd hf not_groupFree_group

/-- In a list that goes down, the first element with a value comes no later than another one with
a value. -/
theorem findSome?_of_pairwise {α : Type} {l : List Nat} {f : Nat → Option α} {m : Nat}
    (hl : l.Pairwise (· > ·)) (hm : m ∈ l) (hf : f m ≠ none) :
    ∃ k ∈ l, m ≤ k ∧ f k ≠ none ∧ l.findSome? f = f k := by
  induction l with
  | nil => cases hm
  | cons k l ih =>
    obtain ⟨hk, hl⟩ := List.pairwise_cons.1 hl
    rcases hfk : f k with _ | a
    · have hml : m ∈ l := by
        rcases List.mem_cons.1 hm with rfl | hm
        · exact absurd hfk hf
        · exact hm
      obtain ⟨i, hi, hle, hfi, hfind⟩ := ih hl hml
      exact ⟨i, List.mem_cons_of_mem _ hi, hle, hfi, by rw [List.findSome?_cons, hfk, hfind]⟩
    · refine ⟨k, List.mem_cons_self, ?_, by rw [hfk]; exact Option.some_ne_none a, ?_⟩
      · rcases List.mem_cons.1 hm with rfl | hm
        · exact Nat.le_refl m
        · exact Nat.le_of_lt (hk m hm)
      · rw [List.findSome?_cons, hfk]

/-- **The first path ends furthest,** if there is a derivation at all. -/
theorem head_paths_greatest (hf : GroupFree pieces) (hp : p ∈ s.starts)
    (h : Derives s pieces p t e u) :
    ∃ a, e ≤ a ∧ (paths s pieces p t).head? = some (a, t) := by
  induction pieces using pieces_induction generalizing p e u with
  | nil =>
    cases h
    exact ⟨p, Nat.le_refl p, by rw [paths]; rfl⟩
  | atom x q rest ih =>
    rw [groupFree_atom] at hf
    cases h with
    | @atom _ _ w _ _ m _ _ _ hx hw hr =>
      obtain ⟨ahead, hahead⟩ := Subject.mem_starts_iff.1 hp
      have hstarts : ∀ k ∈ x.stops q p ahead, k ∈ s.starts := by
        intro k hk
        obtain ⟨w', -, hw'⟩ := (Atom.mem_stops_iff hahead).1 hk
        exact Subject.right_mem_starts hw'
      have hm : m ∈ x.stops q p ahead := (Atom.mem_stops_iff hahead).2 ⟨w, hx, hw⟩
      obtain ⟨b, heb, hb⟩ := ih hf (hstarts m hm) hr
      -- the search goes on from a stop `k` that comes no later than `m`
      obtain ⟨k, hk, hmk, hne, hfind⟩ := findSome?_of_pairwise (x.stops_pairwise q p ahead) hm
        (f := fun m => (paths s rest m t).head?) (by rw [hb]; exact Option.some_ne_none _)
      obtain ⟨⟨c, v⟩, hc⟩ := Option.ne_none_iff_exists'.1 hne
      -- from there the pieces can end no earlier than from `m` on
      have hdb := derives_of_mem_paths (hstarts m hm) (List.mem_of_mem_head? hb)
      have hdk := derives_of_mem_paths (hstarts k hk) (List.mem_of_mem_head? hc)
      obtain ⟨a, hba, hda⟩ := hdb.overtake hf hdk hmk
      obtain ⟨d, had, hd⟩ := ih hf (hstarts k hk) hda
      refine ⟨d, by omega, ?_⟩
      rw [paths_atom hahead, List.head?_flatMap, hfind, hd]
  | backref n q rest ih =>
    rw [groupFree_backref] at hf
    cases h with
    | @backref _ _ w _ _ m _ _ _ ht hw hr =>
      obtain ⟨a, ha, hhead⟩ := ih hf (Subject.right_mem_starts hw) hr
      have hm := Subject.add_size_of_slice hw
      subst hm
      refine ⟨a, ha, ?_⟩
      rw [paths, ht]
      simp only [hw, if_pos]
      exact hhead
  | group => exact absurd hf not_groupFree_group

theorem groupFree_failed_iff (hf : GroupFree pieces) (hp : p ∈ s.starts) :
    matchPieces s pieces p t = .failed ↔ ¬ ∃ e u, Derives s pieces p t e u := by
  rw [matchPieces_eq_ofPaths hp, Outcome.ofPaths_eq_failed_iff]
  constructor
  · rintro h ⟨e, u, hd⟩
    obtain ⟨a, -, hhead⟩ := head_paths_greatest hf hp hd
    rw [h] at hhead; cases hhead
  · intro h
    rw [List.eq_nil_iff_forall_not_mem]
    rintro ⟨e, u⟩ hmem
    exact h ⟨e, u, derives_of_mem_paths hp hmem⟩

theorem groupFree_matched_iff (hf : GroupFree pieces) (hp : p ∈ s.starts) :
    matchPieces s pieces p t = .matched e u ↔
      u = t ∧ IsGreatest {a | ∃ v, Derives s pieces p t a v} e := by
  rw [matchPieces_eq_ofPaths hp, Outcome.ofPaths_eq_matched_iff]
  constructor
  · intro h
    have hd := derives_of_mem_paths hp (List.mem_of_mem_head? h)
    refine ⟨hd.captures_eq hf, ⟨u, hd⟩, ?_⟩
    rintro a ⟨v, hv⟩
    obtain ⟨b, hab, hb⟩ := head_paths_greatest hf hp hv
    rw [h] at hb
    cases hb
    exact hab
  · rintro ⟨rfl, ⟨v, hv⟩, hub⟩
    obtain ⟨b, heb, hb⟩ := head_paths_greatest hf hp hv
    have hbe : b ≤ e := hub ⟨_, derives_of_mem_paths hp (List.mem_of_mem_head? hb)⟩
    rw [hb, Nat.le_antisymm heb hbe]

/-- **Without groups the search is exact and finds the longest match.** From a boundary it fails if
there is no derivation, and otherwise ends at the greatest end of any derivation. So a pattern
without groups matches a line exactly if some derivation of it starts at a boundary, at `0` if the
pattern begins with `^`, and ends with the line if the pattern ends with `$`: the first match at
each start decides. -/
theorem groupFree_longest :
    (∀ (s : Subject) (pieces : List Piece) (p : Nat) (t : Captures), GroupFree pieces →
        p ∈ s.starts →
        (matchPieces s pieces p t = .failed ↔ ¬ ∃ e u, Derives s pieces p t e u) ∧
        ∀ e u, matchPieces s pieces p t = .matched e u ↔
          u = t ∧ IsGreatest {a | ∃ v, Derives s pieces p t a v} e) ∧
      ∀ line pattern : String, GroupFree (Regex.ofPattern pattern).program.pieces →
        (isMatch line pattern = true ↔
          ∃ start ∈ (Subject.ofString line).starts, (pattern.toList.head? = some '^' → start = 0) ∧
            ∃ stop u,
              Derives (.ofString line) (Regex.ofPattern pattern).program.pieces start .empty
                stop u ∧
              (pattern.toList.getLast? = some '$' → stop = (Subject.ofString line).size)) := by
  refine ⟨?_, ?_⟩
  · intro s pieces p t hf hp
    exact ⟨groupFree_failed_iff hf hp, fun e u => groupFree_matched_iff hf hp⟩
  intro line pattern hf
  rw [isMatch_iff]
  refine ⟨?_, ?_⟩
  · rintro ⟨start, hstart, h0, stop, u, hmatch, hstop⟩
    obtain ⟨-, ⟨v, hv⟩, -⟩ := (groupFree_matched_iff hf hstart).1 hmatch
    exact ⟨start, hstart, h0, stop, v, hv, hstop⟩
  · rintro ⟨start, hstart, h0, stop, u, hd, hstop⟩
    obtain ⟨a, hle, hhead⟩ := head_paths_greatest hf hstart hd
    have hmatch : (Regex.ofPattern pattern).matchAt (.ofString line) start = .matched a .empty := by
      rw [Regex.matchAt, matchPieces_eq_ofPaths hstart, Outcome.ofPaths_eq_matched_iff, hhead]
    -- the greatest end is the end of the line if some end is
    have hda := derives_of_mem_paths hstart (List.mem_of_mem_head? hhead)
    have hsize := Subject.le_size_of_mem_starts (hda.mem_starts hstart)
    refine ⟨start, hstart, h0, a, .empty, hmatch, ?_⟩
    intro hdollar
    have := hstop hdollar
    omega

/-- A run that has to give back for an optional character and a repeated text, and a line that it
has to end with. -/
theorem groupFree_longest_giving_back :
    GroupFree [.atom .any .plus, .atom (.literal 'é') .optional, .backref 1 .one] ∧
      0 ∈ (Subject.ofString "aéaéb").starts ∧
      IsGreatest {a | ∃ v, Derives (.ofString "aéaéb")
        [.atom .any .plus, .atom (.literal 'é') .optional, .backref 1 .one] 0
        ⟨[some ⟨1, 3⟩]⟩ a v} 6 ∧
      GroupFree (Regex.ofPattern "^.+é?b$").program.pieces ∧
      ∃ start ∈ (Subject.ofString "aéaéb").starts,
        ("^.+é?b$".toList.head? = some '^' → start = 0) ∧
        ∃ stop u,
          Derives (.ofString "aéaéb") (Regex.ofPattern "^.+é?b$").program.pieces start .empty
            stop u ∧
          ("^.+é?b$".toList.getLast? = some '$' → stop = (Subject.ofString "aéaéb").size) := by
  have hf : GroupFree [.atom .any .plus, .atom (.literal 'é') .optional, .backref 1 .one] := by
    simp
  have hp : 0 ∈ (Subject.ofString "aéaéb").starts := Subject.zero_mem_starts
  have hmatch : matchPieces (.ofString "aéaéb")
      [.atom .any .plus, .atom (.literal 'é') .optional, .backref 1 .one] 0 ⟨[some ⟨1, 3⟩]⟩ =
        .matched 6 ⟨[some ⟨1, 3⟩]⟩ := by decide
  have hpieces : (Regex.ofPattern "^.+é?b$").program.pieces =
      [.atom .any .plus, .atom (.literal 'é') .optional, .atom (.literal 'b') .one] := by decide +kernel
  have hf' : GroupFree (Regex.ofPattern "^.+é?b$").program.pieces := by
    rw [hpieces]
    simp
  have hline : isMatch "aéaéb" "^.+é?b$" = true := by decide +kernel
  exact ⟨hf, hp, (((groupFree_longest.1 _ _ _ _ hf hp).2 _ _).1 hmatch).2, hf',
    (groupFree_longest.2 _ _ hf').1 hline⟩

end LineSearch
