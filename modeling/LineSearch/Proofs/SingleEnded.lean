import LineSearch.Proofs.Soundness

/-!
# Groups with one end

Of each alternative of a group the search takes the first match only, so in general it misses some
derivations. It misses none where this first match says all: where a group can end at one offset only
from each start, whichever of its alternatives is taken.

* `SingleEnded`: alternatives that can only end at one offset.
* `Derives.change_captures`: without back-references captures do not decide what can be derived.
* `exists_mem_firstPaths`, `exists_mem_links`: the search reaches the end of a group wherever a
  derivation does, and the end of each repetition.
* `paths_ne_nil`: so there is a path if there is a derivation.
* `SingleEnded.of_hasWidth`: alternatives of the same width have one end.
* `singleEnded_complete`: the search finds a match exactly if there is a derivation.
-/

namespace LineSearch

variable {s : Subject} {pieces part : List Piece} {alternatives : List (List Piece)} {p m e : Nat}
  {t u v : Captures}

/-- From each boundary of each line, all derivations of all these alternatives end at the same
offset. -/
def SingleEnded (alternatives : List (List Piece)) : Prop :=
  ∀ (s : Subject) (p : Nat) (t : Captures), p ∈ s.starts →
    ∀ a ∈ alternatives, ∀ b ∈ alternatives, ∀ e u e' u',
      Derives s a p t e u → Derives s b p t e' u' → e = e'

/-- **Without back-references captures do not matter:** what can be derived with some captures can be
derived with any others, up to the same end. -/
theorem Derives.change_captures (hfree : ∀ n q, ¬ Occurs (.backref n q) pieces)
    (h : Derives s pieces p t e u) (t' : Captures) : ∃ u', Derives s pieces p t' e u' := by
  induction h generalizing t' with
  | nil => exact ⟨t', .nil⟩
  | atom hx hw hr ih =>
    obtain ⟨u', hu⟩ := ih (fun n q hn => hfree n q hn.tail) t'
    exact ⟨u', .atom hx hw hu⟩
  | backref => exact absurd (occurs_of_mem List.mem_cons_self) (hfree _ _)
  | @once number alternatives part q rest p m e t u v hq ha hd hr ihd ih =>
    obtain ⟨v', hv⟩ := ihd (fun n q hn => hfree n q (occurs_of_part List.mem_cons_self ha hn)) t'
    obtain ⟨u', hu⟩ := ih (fun n q hn => hfree n q hn.tail)
      (v'.note number ⟨p, m⟩)
    exact ⟨u', .once hq ha hv hu⟩
  | skip hr ih =>
    obtain ⟨u', hu⟩ := ih (fun n q hn => hfree n q hn.tail) t'
    exact ⟨u', .skip hu⟩
  | @repeated number alternatives rest p e t u n ends choice tables hp hlt ha hd hr ihd ih =>
    -- the same alternatives, each repetition from the other captures
    have hex : ∀ i, ∃ w, i ≤ n → Derives s (choice i) (ends i) t' (ends (i + 1)) w := by
      intro i
      by_cases hi : i ≤ n
      · obtain ⟨w, hw⟩ := ihd i hi
          (fun n q hn => hfree n q (occurs_of_part List.mem_cons_self (ha i hi) hn)) t'
        exact ⟨w, fun _ => hw⟩
      · exact ⟨t', fun h => absurd h hi⟩
    obtain ⟨tables', htables⟩ := Classical.skolem.1 hex
    obtain ⟨u', hu⟩ := ih (fun n q hn => hfree n q hn.tail)
      ((tables' n).note number ⟨p, ends (n + 1)⟩)
    exact ⟨u', .repeated hp hlt ha htables hu⟩

/-- All first paths of alternatives with one end lead to this end. -/
theorem eq_of_mem_firstPaths (hsingle : SingleEnded alternatives) (hp : p ∈ s.starts)
    (ha : part ∈ alternatives) (hd : Derives s part p t m v) {k : Nat} {w : Captures}
    (h : (k, w) ∈ firstPaths s alternatives p t) : k = m := by
  obtain ⟨b, hb, hhead⟩ := List.mem_filterMap.1 h
  have hk := derives_of_mem_paths hp (List.mem_of_mem_head? hhead)
  exact hsingle s p t hp b hb part ha k w m v hk hd

/-- **The search reaches the end of a group:** if an alternative that has a path is derived up to some
end, some first path leads to this end. -/
theorem exists_mem_firstPaths (hsingle : SingleEnded alternatives) (hp : p ∈ s.starts)
    (ha : part ∈ alternatives) (hd : Derives s part p t m v) (hpath : paths s part p t ≠ []) :
    ∃ w, (m, w) ∈ firstPaths s alternatives p t := by
  obtain ⟨⟨k, w⟩, more, hcons⟩ := List.exists_cons_of_ne_nil hpath
  have hmem : (k, w) ∈ firstPaths s alternatives p t :=
    List.mem_filterMap.2 ⟨part, ha, by rw [hcons]; rfl⟩
  have hkm := eq_of_mem_firstPaths hsingle hp ha hd hmem
  exact ⟨w, hkm ▸ hmem⟩

/-- If all first paths lead to one offset further on, so does the first link. -/
theorem links_eq_cons {first : Nat → List Path} (hlt : p < m) (hsize : m ≤ s.size)
    (hex : ∃ w, (m, w) ∈ first p) (heq : ∀ k w, (k, w) ∈ first p → k = m) :
    ∃ w, links s first p = (m, w) :: links s first m := by
  obtain ⟨w, hw⟩ := hex
  rcases hfind : (first p).find? fun path => p < path.1 with _ | ⟨k, v⟩
  · have hnot := List.find?_eq_none.1 hfind _ hw
    simp only [decide_eq_true_eq] at hnot
    omega
  · have hk := heq k v (List.mem_of_find?_eq_some hfind)
    subst hk
    exact ⟨v, links_of_some hfind hsize⟩

/-- **The search reaches the end of each repetition:** if from each end of some repetitions there are
first paths and all of them lead to the next end, then the last end is among the links. -/
theorem exists_mem_links (first : Nat → List Path) {n : Nat} (ends : Nat → Nat)
    (hlt : ∀ i ≤ n, ends i < ends (i + 1)) (hsize : ∀ i ≤ n, ends (i + 1) ≤ s.size)
    (hex : ∀ i ≤ n, ∃ w, (ends (i + 1), w) ∈ first (ends i))
    (heq : ∀ i ≤ n, ∀ k w, (k, w) ∈ first (ends i) → k = ends (i + 1)) :
    ∃ w, (ends (n + 1), w) ∈ links s first (ends 0) := by
  induction n generalizing ends with
  | zero =>
    obtain ⟨w, hw⟩ := links_eq_cons (hlt 0 (Nat.le_refl 0)) (hsize 0 (Nat.le_refl 0))
      (hex 0 (Nat.le_refl 0)) (heq 0 (Nat.le_refl 0))
    exact ⟨w, hw ▸ List.mem_cons_self⟩
  | succ n ih =>
    have h0 : 0 ≤ n + 1 := Nat.zero_le (n + 1)
    obtain ⟨w, hw⟩ := links_eq_cons (hlt 0 h0) (hsize 0 h0) (hex 0 h0) (heq 0 h0)
    -- the other repetitions start from the first end
    obtain ⟨v, hv⟩ := ih (fun i => ends (i + 1)) (fun i hi => hlt (i + 1) (by omega))
      (fun i hi => hsize (i + 1) (by omega)) (fun i hi => hex (i + 1) (by omega))
      (fun i hi => heq (i + 1) (by omega))
    exact ⟨v, hw ▸ List.mem_cons_of_mem _ hv⟩

/-- Pieces in which the first match of an alternative says all: there are no back-references, and each
group at any depth has one end from each start. -/
structure GroupsSingleEnded (pieces : List Piece) : Prop where
  backrefFree : ∀ n q, ¬ Occurs (.backref n q) pieces
  singleEnded : ∀ number alternatives q, Occurs (.group number alternatives q) pieces →
    SingleEnded alternatives

theorem GroupsSingleEnded.tail {piece : Piece} {rest : List Piece}
    (h : GroupsSingleEnded (piece :: rest)) : GroupsSingleEnded rest where
  backrefFree := fun n q hn => h.backrefFree n q hn.tail
  singleEnded := fun number alternatives q hn => h.singleEnded number alternatives q hn.tail

theorem GroupsSingleEnded.alternative {number : Option GroupNumber} {q : Quantifier}
    {rest : List Piece} (h : GroupsSingleEnded (.group number alternatives q :: rest))
    (ha : part ∈ alternatives) : GroupsSingleEnded part where
  backrefFree := fun n q hn => h.backrefFree n q (occurs_of_part List.mem_cons_self ha hn)
  singleEnded := fun number as q hn =>
    h.singleEnded number as q (occurs_of_part List.mem_cons_self ha hn)

/-- **Where there is a derivation there is a path,** whatever the captures. -/
theorem paths_ne_nil (hsingle : GroupsSingleEnded pieces) (hp : p ∈ s.starts)
    (h : Derives s pieces p t e u) (t' : Captures) : paths s pieces p t' ≠ [] := by
  induction pieces using pieces_induction generalizing p t e u t' with
  | nil =>
    rw [paths]
    exact List.cons_ne_nil _ _
  | atom x q rest ih =>
    cases h with
    | atom hx hw hr =>
      obtain ⟨ahead, hahead⟩ := Subject.mem_starts_iff.1 hp
      have hrest := ih hsingle.tail (Subject.right_mem_starts hw) hr t'
      rw [paths_atom hahead]
      intro hnil
      exact hrest (List.flatMap_eq_nil_iff.1 hnil _ ((Atom.mem_stops_iff hahead).2 ⟨_, hx, hw⟩))
  | backref n q rest ih =>
    exact absurd (occurs_of_mem List.mem_cons_self) (hsingle.backrefFree n q)
  | group number alternatives q rest iha ih =>
    have hone : SingleEnded alternatives :=
      hsingle.singleEnded number alternatives q (occurs_of_mem List.mem_cons_self)
    -- at any boundary the first paths reach the end of each derivation of an alternative
    have hreach : ∀ {k m : Nat} {v : Captures} {part : List Piece}, k ∈ s.starts →
        part ∈ alternatives → Derives s part k t m v →
        (∃ w, (m, w) ∈ firstPaths s alternatives k t') ∧
          ∀ j w, (j, w) ∈ firstPaths s alternatives k t' → j = m := by
      intro k m v part hk ha hd
      have hpart := hsingle.alternative ha
      obtain ⟨v', hd'⟩ := hd.change_captures hpart.backrefFree t'
      have hpath := iha part ha hpart hk hd' t'
      exact ⟨exists_mem_firstPaths hone hk ha hd' hpath,
        fun j w hj => eq_of_mem_firstPaths hone hk ha hd' hj⟩
    rw [paths_group]
    cases h with
    | @once _ _ part _ _ _ m _ _ _ v hq ha hd hr =>
      obtain ⟨w, hw⟩ := (hreach hp ha hd).1
      have honce : ((firstPaths s alternatives p t').flatMap fun first =>
          paths s rest first.1 (first.2.note number ⟨p, first.1⟩)) ≠ [] := by
        intro hnil
        exact ih hsingle.tail (hd.mem_starts hp) hr _ (List.flatMap_eq_nil_iff.1 hnil _ hw)
      cases q with
      | one => exact honce
      | optional => exact fun hnil => honce (List.append_eq_nil_iff.1 hnil).1
      | plus => exact absurd rfl hq
    | skip hr =>
      exact fun hnil => ih hsingle.tail hp hr t' (List.append_eq_nil_iff.1 hnil).2
    | @repeated _ _ _ _ _ _ _ n ends choice tables h0 hlt ha hd hr =>
      subst h0
      have hends := Derives.ends_mem_starts hp fun i hi hs => (hd i hi).mem_starts hs
      have hstep := fun i (hi : i ≤ n) => hreach (hends i (by omega)) (ha i hi) (hd i hi)
      obtain ⟨w, hw⟩ := exists_mem_links (firstPaths s alternatives · t') ends hlt
        (fun i hi => Subject.le_size_of_mem_starts (hends (i + 1) (by omega)))
        (fun i hi => (hstep i hi).1) (fun i hi => (hstep i hi).2)
      intro hnil
      have hlast := List.flatMap_eq_nil_iff.1 hnil _ (List.mem_reverse.2 hw)
      exact ih hsingle.tail (hends (n + 1) (Nat.le_refl _)) hr _ hlast

section Width

variable {n k : Nat} {rest : List Piece}

/-- All derivations of these pieces take `n` characters. -/
def HasWidth (n : Nat) (pieces : List Piece) : Prop :=
  ∀ (s : Subject) (p : Nat) (t : Captures) (e : Nat) (u : Captures), p ∈ s.starts →
    Derives s pieces p t e u → ∃ w, s.slice ⟨p, e⟩ = some w ∧ w.length = n

theorem hasWidth_nil : HasWidth 0 [] := by
  intro s p t e u hp h
  cases h
  obtain ⟨ahead, hahead⟩ := Subject.mem_starts_iff.1 hp
  exact ⟨[], (Subject.slice_iff_isPrefix hahead).2 ⟨List.nil_prefix, rfl⟩, rfl⟩

theorem hasWidth_atom (x : Atom) (h : HasWidth n rest) : HasWidth (n + 1) (.atom x .one :: rest) := by
  intro s p t e u hp hd
  cases hd with
  | atom hx hw hr =>
    obtain ⟨v, hv, hlen⟩ := h s _ _ _ _ (Subject.right_mem_starts hw) hr
    have hone : List.length _ = 1 := hx.1
    exact ⟨_, Subject.slice_append hw hv, by rw [List.length_append]; omega⟩

theorem hasWidth_group (number : Option GroupNumber)
    (hparts : ∀ part ∈ alternatives, HasWidth k part) (h : HasWidth n rest) :
    HasWidth (k + n) (.group number alternatives .one :: rest) := by
  intro s p t e u hp hd
  cases hd with
  | once hq ha hd hr =>
    obtain ⟨w, hw, hk⟩ := hparts _ ha s _ _ _ _ hp hd
    obtain ⟨v, hv, hn⟩ := h s _ _ _ _ (hd.mem_starts hp) hr
    exact ⟨w ++ v, Subject.slice_append hw hv, by rw [List.length_append]; omega⟩

/-- **Alternatives of one width have one end.** -/
theorem SingleEnded.of_hasWidth (h : ∀ part ∈ alternatives, HasWidth n part) :
    SingleEnded alternatives := by
  intro s p t hp a ha b hb e u e' u' hd hd'
  obtain ⟨w, hw, hlen⟩ := h a ha s p t e u hp hd
  obtain ⟨w', hw', hlen'⟩ := h b hb s p t e' u' hp hd'
  obtain ⟨ahead, hahead⟩ := Subject.mem_starts_iff.1 hp
  obtain ⟨hpre, hsize⟩ := (Subject.slice_iff_isPrefix hahead).1 hw
  obtain ⟨hpre', hsize'⟩ := (Subject.slice_iff_isPrefix hahead).1 hw'
  have hww : w = w' := by
    rw [List.prefix_iff_eq_take.1 hpre, List.prefix_iff_eq_take.1 hpre', hlen, hlen']
  rw [← hsize, ← hsize', hww]

end Width

/-- **The search is complete for groups with one end.** Without back-references, and with every group
at any depth such that its alternatives can only end at one offset from each start, a search from a
boundary finds a match exactly if there is a derivation. -/
theorem singleEnded_complete (s : Subject) (pieces : List Piece) (p : Nat) (t : Captures)
    (hfree : ∀ n q, ¬ Occurs (.backref n q) pieces)
    (hsingle : ∀ number alternatives q, Occurs (.group number alternatives q) pieces →
      SingleEnded alternatives)
    (hp : p ∈ s.starts) :
    (∃ e u, matchPieces s pieces p t = .matched e u) ↔ ∃ e u, Derives s pieces p t e u := by
  constructor
  · rintro ⟨e, u, h⟩
    exact ⟨e, u, derives_of_matchPieces hp h⟩
  · rintro ⟨e, u, h⟩
    have hpath : paths s pieces p t ≠ [] := paths_ne_nil ⟨hfree, hsingle⟩ hp h t
    obtain ⟨⟨a, v⟩, more, hcons⟩ := List.exists_cons_of_ne_nil hpath
    refine ⟨a, v, ?_⟩
    rw [matchPieces_eq_ofPaths hp, hcons]
    rfl

/-- Repetitions of two characters each, with a group inside; the last one is given back for the rest of
the pieces. In the other line nothing is left to give back. -/
theorem singleEnded_complete_nested :
    let inner : List (List Piece) := [[.atom (.literal 'é') .one], [.atom (.literal 'b') .one]]
    let outer : List (List Piece) :=
      [[.group (some 2) inner .one, .atom .any .one], [.atom (.literal 'c') .one, .atom .any .one]]
    let pieces : List Piece := [.group (some 1) outer .plus, .atom (.literal 'c') .one]
    (∀ n q, ¬ Occurs (.backref n q) pieces) ∧
      (∀ number alternatives q, Occurs (.group number alternatives q) pieces →
        SingleEnded alternatives) ∧
      0 ∈ (Subject.ofString "éxcücz").starts ∧
      (∃ e u, Derives (.ofString "éxcücz") pieces 0 .empty e u) ∧
      0 ∈ (Subject.ofString "cé").starts ∧
      ¬ ∃ e u, Derives (.ofString "cé") pieces 0 .empty e u := by
  intro inner outer pieces
  have hinner : ∀ part ∈ inner, HasWidth 1 part := by
    simp only [inner, List.mem_cons, List.not_mem_nil, or_false, forall_eq_or_imp, forall_eq]
    exact ⟨hasWidth_atom _ hasWidth_nil, hasWidth_atom _ hasWidth_nil⟩
  have houter : ∀ part ∈ outer, HasWidth 2 part := by
    simp only [outer, List.mem_cons, List.not_mem_nil, or_false, forall_eq_or_imp, forall_eq]
    exact ⟨hasWidth_group _ hinner (hasWidth_atom _ hasWidth_nil),
      hasWidth_atom _ (hasWidth_atom _ hasWidth_nil)⟩
  have hfree : ∀ n q, ¬ Occurs (.backref n q) pieces := by
    simp [pieces, outer, inner]
  have hsingle : ∀ number alternatives q, Occurs (.group number alternatives q) pieces →
      SingleEnded alternatives := by
    intro number alternatives q h
    have hcases : number = some 1 ∧ alternatives = outer ∧ q = .plus ∨
        number = some 2 ∧ alternatives = inner ∧ q = .one := by
      simpa [pieces, outer, inner] using h
    rcases hcases with ⟨-, rfl, -⟩ | ⟨-, rfl, -⟩
    · exact .of_hasWidth houter
    · exact .of_hasWidth hinner
  have hp : 0 ∈ (Subject.ofString "éxcücz").starts := Subject.zero_mem_starts
  have hp' : 0 ∈ (Subject.ofString "cé").starts := Subject.zero_mem_starts
  have hmatch : matchPieces (.ofString "éxcücz") pieces 0 .empty =
      .matched 7 ⟨[some ⟨0, 6⟩]⟩ := by decide +kernel
  have hfail : matchPieces (.ofString "cé") pieces 0 .empty = .failed := by decide +kernel
  refine ⟨hfree, hsingle, hp, (singleEnded_complete _ _ _ _ hfree hsingle hp).1 ⟨_, _, hmatch⟩, hp', ?_⟩
  intro hd
  obtain ⟨e, u, h⟩ := (singleEnded_complete _ _ _ _ hfree hsingle hp').2 hd
  rw [hfail] at h
  cases h

end LineSearch
