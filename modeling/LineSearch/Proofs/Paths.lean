import LineSearch.Proofs.Stops

/-!
# Ordered choice

All ways to match a sequence of pieces, best first, as one list without a search.

* `paths`: that list, clause by clause. Of an alternative of a group only the first path counts;
  `links` are the repetitions of a group.
* `derives_of_mem_paths`: each path is a derivation.
* `matchPieces_eq_ofPaths`: the search finds the head of the list.
* `matchPieces_head`: so it fails when the list is empty, and otherwise its end and its captures
  are those of the first path.
-/

namespace LineSearch

/-- A way to match: where it ends, and the captures that it leaves. -/
abbrev Path := Nat × Captures

/-- The offset after the character at `p`, if the atom stands for that character. -/
def Atom.after? (x : Atom) (s : Subject) (p : Nat) : Option Nat :=
  match s.ahead p with
  | some (c :: _) => if x.accepts c then some (p + c.utf8Size) else none
  | _ => none

theorem Atom.lt_of_after? {x : Atom} {s : Subject} {p q : Nat} (h : x.after? s p = some q) :
    p < q ∧ q ≤ s.size := by
  unfold Atom.after? at h
  split at h
  · rename_i c cs hahead
    rw [Subject.ahead_eq, Text.suffixAt_eq_some_iff] at hahead
    obtain ⟨l, htext, hl⟩ := hahead
    have hc := c.utf8Size_pos
    split at h
    · cases h
      rw [Subject.size_eq, htext, Text.size_append, Text.size_cons]
      omega
    · cases h
  · cases h

/-- The repetitions from offset `p` on: each takes the first path that moves on from where the one
before it ended. No path ends past the size, which makes the links come to an end. -/
def links (s : Subject) (first : Nat → List Path) (p : Nat) : List Path :=
  match _h : (first p).find? fun path => p < path.1 with
  | some (m, v) => if m ≤ s.size then (m, v) :: links s first m else []
  | none => []
termination_by s.size - p
decreasing_by
  have hlt := List.find?_some _h
  simp only [decide_eq_true_eq] at hlt
  omega

/-- **The ways to match a sequence of pieces** from offset `p` on with the captures `t`, best
first. -/
def paths (s : Subject) : List Piece → Nat → Captures → List Path
  | [], p, t => [(p, t)]
  | .atom x .one :: rest, p, t => (x.after? s p).toList.flatMap fun m => paths s rest m t
  | .atom x .optional :: rest, p, t =>
    ((x.after? s p).toList.flatMap fun m => paths s rest m t) ++ paths s rest p t
  | .atom x .plus :: rest, p, t =>
    match _h : x.after? s p with
    | some m => paths s (.atom x .plus :: rest) m t ++ paths s rest m t
    | none => []
  | .backref n _ :: rest, p, t =>
    match t.text? s n with
    | some w =>
      if s.slice ⟨p, p + Text.size w⟩ = some w then paths s rest (p + Text.size w) t else []
    | none => []
  | .group number alternatives q :: rest, p, t =>
    -- each alternative contributes its first path only
    let first p := alternatives.attach.filterMap fun ⟨part, _⟩ => (paths s part p t).head?
    let follow := fun (m, v) => paths s rest m (Captures.note v number ⟨p, m⟩)
    match q with
    | .one => (first p).flatMap follow
    | .optional => (first p).flatMap follow ++ paths s rest p t
    | .plus => (links s first p).reverse.flatMap follow
termination_by pieces p => (sizeOf pieces, s.size - p)
decreasing_by
  any_goals (apply Prod.Lex.left; simp only [List.cons.sizeOf_spec]; omega)
  · have hlt := Atom.lt_of_after? _h
    exact .right _ (by omega)
  · have hlt := List.sizeOf_lt_of_mem ‹part ∈ alternatives›
    exact .left _ _ (by simp only [List.cons.sizeOf_spec, Piece.group.sizeOf_spec]; omega)

variable {s : Subject} {pieces rest part : List Piece} {alternatives : List (List Piece)}
  {number : Option GroupNumber} {x : Atom} {q : Quantifier} {p m e : Nat} {t u v : Captures}
  {ahead : List Char}

/-- The first path of each alternative, in the order of the alternatives. -/
def firstPaths (s : Subject) (alternatives : List (List Piece)) (p : Nat) (t : Captures) :
    List Path :=
  alternatives.filterMap fun part => (paths s part p t).head?

theorem paths_group (number : Option GroupNumber) (alternatives : List (List Piece))
    (q : Quantifier) (rest : List Piece) (p : Nat) (t : Captures) :
    paths s (.group number alternatives q :: rest) p t =
      match q with
      | .one => (firstPaths s alternatives p t).flatMap fun (m, v) =>
          paths s rest m (v.note number ⟨p, m⟩)
      | .optional => ((firstPaths s alternatives p t).flatMap fun (m, v) =>
          paths s rest m (v.note number ⟨p, m⟩)) ++ paths s rest p t
      | .plus => (links s (firstPaths s alternatives · t) p).reverse.flatMap fun (m, v) =>
          paths s rest m (v.note number ⟨p, m⟩) := by
  -- the memberships that `attach` adds are for the termination only
  have hfirst : ∀ p, (alternatives.attach.filterMap fun ⟨part, _⟩ => (paths s part p t).head?) =
      firstPaths s alternatives p t := by
    intro p
    simp [firstPaths]
  cases q <;> rw [paths] <;> simp only [hfirst]

theorem paths_plus (x : Atom) (rest : List Piece) (p : Nat) (t : Captures) :
    paths s (.atom x .plus :: rest) p t = (x.after? s p).toList.flatMap fun m =>
      paths s (.atom x .plus :: rest) m t ++ paths s rest m t := by
  rw [paths]
  split
  · rename_i m h
    rw [h, Option.toList_some, List.flatMap_singleton]
  · rename_i h
    rw [h]; rfl

/-- **The paths of an atom** go on from each of its stops, in their order. -/
theorem paths_atom (h : s.ahead p = some ahead) (x : Atom) (q : Quantifier) (rest : List Piece)
    (t : Captures) :
    paths s (.atom x q :: rest) p t =
      (x.stops q p ahead).flatMap fun m => paths s rest m t := by
  have hone : ∀ {p ahead}, s.ahead p = some ahead →
      (x.after? s p).toList = Text.ends p ((ahead.take 1).takeWhile x.accepts) := by
    intro p ahead h
    rw [Atom.after?, h]
    cases ahead with
    | nil => rfl
    | cons c ahead => by_cases hc : x.accepts c = true <;> simp [hc, Text.ends]
  cases q with
  | one => rw [paths, hone h]; rfl
  | optional =>
    rw [paths, hone h, Atom.stops, List.flatMap_append, List.flatMap_singleton]
  | plus =>
    -- one character at a time from the front, against the whole run from its end
    induction ahead generalizing p with
    | nil => rw [paths_plus, hone h]; rfl
    | cons c ahead ih =>
      rw [paths_plus, hone h]
      by_cases hc : x.accepts c = true
      · have hrun : Text.ends p (((c :: ahead).take 1).takeWhile x.accepts) =
            [p + c.utf8Size] := by
          simp [hc, Text.ends]
        rw [hrun, List.flatMap_singleton, ih (Subject.ahead_add_utf8Size h), Atom.stops, Atom.stops,
          List.takeWhile_cons_of_pos hc, Text.ends, List.reverse_cons, List.flatMap_append,
          List.flatMap_singleton]
      · simp [Atom.stops, Text.ends, hc]

theorem links_of_none {first : Nat → List Path}
    (h : ((first p).find? fun path => p < path.1) = none) : links s first p = [] := by
  rw [links]
  split
  · rename_i hsome
    rw [h] at hsome; cases hsome
  · rfl

theorem links_of_some {first : Nat → List Path}
    (h : ((first p).find? fun path => p < path.1) = some (m, v)) (hm : m ≤ s.size) :
    links s first p = (m, v) :: links s first m := by
  rw [links]
  split
  · rename_i hsome
    rw [h] at hsome
    cases hsome
    rw [if_pos hm]
  · rename_i hnone
    rw [h] at hnone; cases hnone

theorem mem_starts_of_mem_links {first : Nat → List Path} (hp : p ∈ s.starts)
    (hfirst : ∀ k ∈ s.starts, ∀ m v, (m, v) ∈ first k → m ∈ s.starts)
    (h : (m, v) ∈ links s first p) : m ∈ s.starts := by
  fun_induction links s first p with
  | case1 p k w hfind hk ih =>
    have hks := hfirst p hp k w (List.mem_of_find?_eq_some hfind)
    rcases List.mem_cons.1 h with h | h
    · cases h; exact hks
    · exact ih hks h
  | case2 => cases h
  | case3 => cases h

/-- Some links make up the repetitions of a derivation. -/
theorem repeated_of_mem_links {first : Nat → List Path} (hp : p ∈ s.starts)
    (hfirst : ∀ k ∈ s.starts, ∀ m v, (m, v) ∈ first k →
      ∃ part ∈ alternatives, Derives s part k t m v)
    (h : (m, v) ∈ links s first p) :
    ∃ (n : Nat) (ends : Nat → Nat) (choice : Nat → List Piece) (tables : Nat → Captures),
      ends 0 = p ∧ (∀ i ≤ n, ends i < ends (i + 1)) ∧ (∀ i ≤ n, choice i ∈ alternatives) ∧
      (∀ i ≤ n, Derives s (choice i) (ends i) t (ends (i + 1)) (tables i)) ∧
      ends (n + 1) = m ∧ tables n = v := by
  fun_induction links s first p with
  | case1 p k w hfind hk ih =>
    obtain ⟨part, ha, hd⟩ := hfirst p hp k w (List.mem_of_find?_eq_some hfind)
    have hlt : p < k := by simpa using List.find?_some hfind
    rcases List.mem_cons.1 h with h | h
    · cases h
      refine ⟨0, fun i => if i = 0 then p else m, fun _ => part, fun _ => v, rfl, ?_, ?_, ?_, rfl, rfl⟩
      · intro i hi
        rw [Nat.le_zero.1 hi]; exact hlt
      · exact fun _ _ => ha
      · intro i hi
        rw [Nat.le_zero.1 hi]; exact hd
    · -- one repetition in front of the others
      obtain ⟨n, ends, choice, tables, h0, hlts, has, hds, hm, hv⟩ := ih (hd.mem_starts hp) h
      refine ⟨n + 1, fun i => i.casesOn p ends, fun i => i.casesOn part choice,
        fun i => i.casesOn w tables, rfl, ?_, ?_, ?_, hm, hv⟩
      · rintro (_ | i) hi
        · simp only [h0]; exact hlt
        · exact hlts i (by omega)
      · rintro (_ | i) hi
        · exact ha
        · exact has i (by omega)
      · rintro (_ | i) hi
        · simp only [h0]; exact hd
        · exact hds i (by omega)
  | case2 => cases h
  | case3 => cases h

/-- **Each path is a derivation.** -/
theorem derives_of_mem_paths (hp : p ∈ s.starts) (h : (e, u) ∈ paths s pieces p t) :
    Derives s pieces p t e u := by
  induction pieces using pieces_induction generalizing p t e u with
  | nil =>
    rw [paths, List.mem_singleton] at h
    cases h
    exact .nil
  | atom x q rest ih =>
    obtain ⟨ahead, hahead⟩ := Subject.mem_starts_iff.1 hp
    rw [paths_atom hahead, List.mem_flatMap] at h
    obtain ⟨m, hm, h⟩ := h
    obtain ⟨w, hx, hw⟩ := (Atom.mem_stops_iff hahead).1 hm
    exact .atom hx hw (ih (Subject.right_mem_starts hw) h)
  | backref n q rest ih =>
    rw [paths] at h
    split at h
    · rename_i w ht
      split at h
      · rename_i hw
        exact .backref ht hw (ih (Subject.right_mem_starts hw) h)
      · cases h
    · cases h
  | group number alternatives q rest iha ih =>
    have hfirst : ∀ k ∈ s.starts, ∀ m v, (m, v) ∈ firstPaths s alternatives k t →
        ∃ part ∈ alternatives, Derives s part k t m v := by
      intro k hk m v hm
      obtain ⟨part, ha, hhead⟩ := List.mem_filterMap.1 hm
      exact ⟨part, ha, iha part ha hk (List.mem_of_mem_head? hhead)⟩
    have honce : ∀ r, r ≠ Quantifier.plus →
        (e, u) ∈ ((firstPaths s alternatives p t).flatMap fun (m, v) =>
          paths s rest m (v.note number ⟨p, m⟩)) →
        Derives s (.group number alternatives r :: rest) p t e u := by
      intro r hr h
      obtain ⟨⟨m, v⟩, hm, h⟩ := List.mem_flatMap.1 h
      obtain ⟨part, ha, hd⟩ := hfirst p hp m v hm
      exact .once hr ha hd (ih (hd.mem_starts hp) h)
    rw [paths_group] at h
    cases q with
    | one => exact honce .one (by decide) h
    | optional =>
      rcases List.mem_append.1 h with h | h
      · exact honce .optional (by decide) h
      · exact .skip (ih hp h)
    | plus =>
      obtain ⟨⟨m, v⟩, hm, h⟩ := List.mem_flatMap.1 h
      rw [List.mem_reverse] at hm
      have hms : m ∈ s.starts := mem_starts_of_mem_links hp (fun k hk m v hm => by
        obtain ⟨part, -, hd⟩ := hfirst k hk m v hm
        exact hd.mem_starts hk) hm
      obtain ⟨n, ends, choice, tables, h0, hlt, ha, hd, rfl, rfl⟩ :=
        repeated_of_mem_links hp hfirst hm
      exact .repeated h0 hlt ha hd (ih hms h)

theorem mem_starts_of_mem_firstPaths (hp : p ∈ s.starts)
    (h : (m, v) ∈ firstPaths s alternatives p t) : m ∈ s.starts := by
  obtain ⟨part, -, hhead⟩ := List.mem_filterMap.1 h
  exact (derives_of_mem_paths hp (List.mem_of_mem_head? hhead)).mem_starts hp

/-- What a search that goes through some paths in order finds. -/
def Outcome.ofPaths : List Path → Outcome
  | [] => .failed
  | (e, u) :: _ => .matched e u

theorem Outcome.ofPaths_append (a b : List Path) :
    Outcome.ofPaths (a ++ b) = (Outcome.ofPaths a).orElse fun _ => Outcome.ofPaths b := by
  cases a <;> rfl

theorem Outcome.ofPaths_eq_failed_iff {l : List Path} : Outcome.ofPaths l = .failed ↔ l = [] := by
  cases l <;> simp [Outcome.ofPaths]

theorem Outcome.ofPaths_eq_matched_iff {l : List Path} :
    Outcome.ofPaths l = .matched e u ↔ l.head? = some (e, u) := by
  cases l <;> simp [Outcome.ofPaths, Prod.ext_iff]

/-- **Trying candidates in order** finds the head of all their paths, one after another. -/
theorem Outcome.ofPaths_flatMap {α : Type} {next : α → Outcome} {f : α → List Path} {as : List α}
    (h : ∀ a ∈ as, next a = Outcome.ofPaths (f a)) :
    tryEach next as = Outcome.ofPaths (as.flatMap f) := by
  induction as with
  | nil => rfl
  | cons a as ih =>
    rw [tryEach_cons, List.flatMap_cons, Outcome.ofPaths_append, h a List.mem_cons_self,
      ih fun b hb => h b (List.mem_cons_of_mem _ hb)]

theorem matchAlternatives_eq_tryEach (next : Nat → Captures → Outcome)
    (h : ∀ part ∈ alternatives, matchPieces s part p t = .ofPaths (paths s part p t)) :
    matchAlternatives s alternatives p t next =
      tryEach (fun (m, v) => next m v) (firstPaths s alternatives p t) := by
  induction alternatives with
  | nil => rfl
  | cons part alternatives ih =>
    rw [matchAlternatives, h part List.mem_cons_self,
      ih fun b hb => h b (List.mem_cons_of_mem _ hb)]
    cases hpart : paths s part p t with
    | nil => simp [firstPaths, hpart, Outcome.ofPaths]
    | cons path more => simp [firstPaths, hpart, Outcome.ofPaths]

/-- Keeping what moves on from `p` finds the first path that does. -/
theorem tryEach_advance (l : List Path) :
    tryEach (fun (m, v) => advance p m v) l =
      .ofPaths (l.find? fun path => p < path.1).toList := by
  induction l with
  | nil => rfl
  | cons path l ih =>
    obtain ⟨m, v⟩ := path
    rw [tryEach_cons, ih]
    by_cases hm : p < m
    · simp [advance, hm, Outcome.ofPaths]
    · simp [advance, hm]

/-- **The loop over the repetitions of a group** collects the links, if it may run as often as
there are bytes ahead. -/
theorem chain_eq_links {first : Nat → List Path} {step : Nat → Outcome} {fuel : Nat}
    (hp : p ∈ s.starts) (hfuel : s.size - p < fuel)
    (hstep : ∀ k ∈ s.starts, step k = .ofPaths ((first k).find? fun path => k < path.1).toList)
    (hfirst : ∀ k ∈ s.starts, ∀ m v, (m, v) ∈ first k → m ∈ s.starts) :
    chain step fuel p = some (links s first p) := by
  induction fuel generalizing p with
  | zero => omega
  | succ fuel ih =>
    rw [chain, hstep p hp]
    -- a link takes one byte at least, and the rest of the fuel does for the bytes after it
    rcases hfind : (first p).find? fun path => p < path.1 with _ | ⟨m, v⟩
    · rw [hfind, links_of_none hfind]; rfl
    · have hm := hfirst p hp m v (List.mem_of_find?_eq_some hfind)
      have hlt : p < m := by simpa using List.find?_some hfind
      have hle := Subject.le_size_of_mem_starts hm
      rw [hfind, links_of_some hfind hle]
      simp only [Option.toList_some, Outcome.ofPaths]
      rw [ih hm (by omega)]; rfl

/-- **The search finds the first path,** wherever it looks ahead from a boundary. -/
theorem matchPieces_eq_ofPaths (hp : p ∈ s.starts) :
    matchPieces s pieces p t = .ofPaths (paths s pieces p t) := by
  induction pieces using pieces_induction generalizing p t with
  | nil => rw [paths]; rfl
  | atom x q rest ih =>
    obtain ⟨ahead, hahead⟩ := Subject.mem_starts_iff.1 hp
    rw [paths_atom hahead, matchPieces, matchPiece, matchAtom, hahead]
    apply Outcome.ofPaths_flatMap
    intro m hm
    obtain ⟨w, -, hw⟩ := (Atom.mem_stops_iff hahead).1 hm
    exact ih (Subject.right_mem_starts hw)
  | backref n q rest ih =>
    obtain ⟨ahead, hahead⟩ := Subject.mem_starts_iff.1 hp
    rw [matchPieces, matchPiece, matchBackref, paths, hahead]
    cases ht : t.text? s n with
    | none => rfl
    | some w =>
      simp only [Subject.slice_iff_isPrefix hahead, and_true, List.isPrefixOf_iff_prefix]
      split
      · rename_i hw
        have hm := Subject.right_mem_starts ((Subject.slice_iff_isPrefix hahead).2 ⟨hw, rfl⟩)
        exact ih hm
      · rfl
  | group number alternatives q rest iha ih =>
    -- whatever ends the group offers, the rest goes on from them in order
    have hfollow : ∀ l : List Path, (∀ m v, (m, v) ∈ l → m ∈ s.starts) →
        tryEach (fun (m, v) => matchPieces s rest m (Captures.note v number ⟨p, m⟩)) l =
          .ofPaths (l.flatMap fun (m, v) => paths s rest m (Captures.note v number ⟨p, m⟩)) :=
      fun l hl => Outcome.ofPaths_flatMap fun (m, v) hm => ih (hl m v hm)
    have hstarts : ∀ k ∈ s.starts, ∀ m v, (m, v) ∈ firstPaths s alternatives k t → m ∈ s.starts :=
      fun k hk m v hm => mem_starts_of_mem_firstPaths hk hm
    -- the alternatives offer their first paths, at any boundary and whatever comes next
    have hall : ∀ k ∈ s.starts, ∀ next, matchAlternatives s alternatives k t next =
        tryEach (fun (m, v) => next m v) (firstPaths s alternatives k t) :=
      fun k hk next => matchAlternatives_eq_tryEach next fun part ha => iha part ha hk
    rw [paths_group]
    cases q with
    | one =>
      rw [matchPieces, matchPiece, hall p hp]
      exact hfollow _ (hstarts p hp)
    | optional =>
      rw [matchPieces, matchPiece, hall p hp, Outcome.ofPaths_append, ih hp,
        ← hfollow _ (hstarts p hp)]
    | plus =>
      have hchain : repetitions s alternatives p t =
          some (links s (firstPaths s alternatives · t) p) := by
        refine chain_eq_links hp (by omega) ?_ hstarts
        intro k hk
        rw [hall k hk, tryEach_advance]
      rw [matchPieces, matchPiece_group_plus, hchain]
      apply hfollow
      intro m v hm
      exact mem_starts_of_mem_links hp hstarts (List.mem_reverse.1 hm)

/-- From a boundary no piece ever looks at the line from a bad offset. -/
theorem matchPieces_ne_offBoundary (hp : p ∈ s.starts) :
    matchPieces s pieces p t ≠ .offBoundary := by
  rw [matchPieces_eq_ofPaths hp]
  cases paths s pieces p t with
  | nil => exact Outcome.noConfusion
  | cons path more => exact Outcome.noConfusion

/-- **Ordered choice.** From a boundary the search fails when there is no path, and otherwise ends
where the first path ends and leaves the captures of the first path. -/
theorem matchPieces_head (s : Subject) (pieces : List Piece) (p : Nat) (t : Captures)
    (hp : p ∈ s.starts) :
    (matchPieces s pieces p t = .failed ↔ paths s pieces p t = []) ∧
      ∀ e u, matchPieces s pieces p t = .matched e u ↔ (paths s pieces p t).head? = some (e, u) := by
  rw [matchPieces_eq_ofPaths hp]
  exact ⟨Outcome.ofPaths_eq_failed_iff, fun e u => Outcome.ofPaths_eq_matched_iff⟩

/-- The second alternative of a group could go on where the first one cannot, but counts only
without a `+`. -/
theorem matchPieces_head_second_alternative :
    0 ∈ (Subject.ofString "béx").starts ∧
      paths (.ofString "béx")
        [.group (some 1) [[.atom (.literal 'b') .one],
          [.atom (.literal 'b') .one, .atom (.literal 'é') .one]] .plus,
          .atom (.literal 'x') .one] 0 .empty = [] ∧
      (paths (.ofString "béx")
        [.group (some 1) [[.atom (.literal 'b') .one],
          [.atom (.literal 'b') .one, .atom (.literal 'é') .one]] .one,
          .atom (.literal 'x') .one] 0 .empty).head? = some (4, ⟨[some ⟨0, 3⟩]⟩) := by
  have hp : 0 ∈ (Subject.ofString "béx").starts := Subject.zero_mem_starts
  exact ⟨hp, (matchPieces_head _ _ _ _ hp).1.1 (by decide),
    ((matchPieces_head _ _ _ _ hp).2 _ _).1 (by decide)⟩

end LineSearch
