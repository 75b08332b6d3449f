import LineSearch.Proofs.GroupTree
import LineSearch.Proofs.Search
import LineSearch.Proofs.Slice

/-!
# Text in front of the line

A match takes no notice of what stands before the offset where it begins. So it runs in a line as it
does in a part of the line that reaches up to its end, with all offsets moved on by the size of the
text in front.

* `Span.shift`, `Captures.shift`, `Outcome.shift`: offsets moved on.
* `Text.suffixAt_append`, `Subject.slice_shift`: the same text lies ahead of the offsets moved on, and
  the spans moved on stand for the same text.
* `matchPieces_shift`: a match further on in a line, from any offset and any captures.
* `matchPieces_translation`: the same for text in front of a line, outcome by outcome.
* `isMatch_iff_exists_suffix`: a search without `^` asks whether the pattern with `^` matches what is
  left of the line from some place on.
-/

namespace LineSearch

variable {s v : Subject} {u : List Char} {k p : Nat} {t : Captures}

/-- A span moved on. -/
def Span.shift (k : Nat) (span : Span) : Span :=
  ⟨k + span.start, k + span.stop⟩

/-- Captures with all spans moved on. -/
def Captures.shift (k : Nat) (t : Captures) : Captures :=
  ⟨t.spans.map (·.map (Span.shift k))⟩

/-- An outcome with its end and its captures moved on. -/
def Outcome.shift (k : Nat) : Outcome → Outcome
  | offBoundary => offBoundary
  | failed => failed
  | matched stop t => matched (k + stop) (t.shift k)

section Text

/-- **What lies ahead** is the same for the offset moved on, if the text has something in front. -/
theorem Text.suffixAt_append (u cs : List Char) (p : Nat) :
    suffixAt (u ++ cs) (size u + p) = suffixAt cs p := by
  ext r
  simp only [suffixAt_eq_some_iff]
  constructor
  · rintro ⟨l, htext, hl⟩
    -- the part before the offset is at least as long as what stands in front
    obtain ⟨l, rfl⟩ : u <+: l :=
      prefix_of_size_le ⟨cs, rfl⟩ ⟨r, htext.symm⟩ (by omega)
    rw [List.append_assoc] at htext
    rw [size_append] at hl
    exact ⟨l, List.append_cancel_left htext, by omega⟩
  · rintro ⟨l, rfl, rfl⟩
    exact ⟨u ++ l, by rw [List.append_assoc], size_append u l⟩

theorem Text.ends_shift (k p : Nat) (cs : List Char) :
    ends (k + p) cs = (ends p cs).map (k + ·) := by
  induction cs generalizing p with
  | nil => rfl
  | cons c cs ih => rw [ends, ends, List.map_cons, Nat.add_assoc, ih]

theorem Atom.stops_shift (x : Atom) (q : Quantifier) (k p : Nat) (ahead : List Char) :
    x.stops q (k + p) ahead = (x.stops q p ahead).map (k + ·) := by
  cases q with
  | one => exact Text.ends_shift k p _
  | plus => simp only [stops, Text.ends_shift, List.map_reverse]
  | optional => simp only [stops, Text.ends_shift, List.map_append, List.map_cons, List.map_nil]

variable (h : s.text = u ++ v.text)
include h

theorem Subject.ahead_shift (p : Nat) : s.ahead (Text.size u + p) = v.ahead p := by
  rw [ahead_eq, ahead_eq, h, Text.suffixAt_append]

theorem Subject.size_shift : s.size = Text.size u + v.size := by
  rw [size_eq, size_eq, h, Text.size_append]

/-- A span moved on stands for the same text. -/
theorem Subject.slice_shift (span : Span) :
    s.slice (span.shift (Text.size u)) = v.slice span := by
  unfold slice Span.shift
  simp only [ahead_shift h, Nat.add_le_add_iff_left, Nat.add_sub_add_left]

end Text

namespace Captures

@[simp] theorem shift_empty (k : Nat) : empty.shift k = empty := rfl

theorem span?_shift (k : Nat) (t : Captures) (g : Nat) :
    (t.shift k).span? g = (t.span? g).map (Span.shift k) := by
  cases g with
  | zero => rfl
  | succ g =>
    simp only [span?, shift, List.getElem?_map]
    cases t.spans[g]? with
    | none => rfl
    | some span => rfl

theorem record_shift (k : Nat) (t : Captures) (g : GroupNumber) (span : Span) :
    (t.shift k).record g (span.shift k) = (t.record g span).shift k := by
  simp only [record, shift, List.map_set, List.rightpad, List.map_append, List.map_replicate,
    List.length_map, Option.map_some, Option.map_none]

theorem note_shift (k : Nat) (t : Captures) (number : Option GroupNumber) (span : Span) :
    (t.shift k).note number (span.shift k) = (t.note number span).shift k := by
  cases number with
  | none => rfl
  | some g => exact record_shift k t g span

theorem text?_shift (h : s.text = u ++ v.text) (t : Captures) (g : Nat) :
    (t.shift (Text.size u)).text? s g = t.text? v g := by
  unfold text?
  rw [span?_shift]
  cases t.span? g with
  | none => rfl
  | some span => exact Subject.slice_shift h span

end Captures

namespace Outcome

theorem shift_eq_offBoundary_iff {o : Outcome} : o.shift k = offBoundary ↔ o = offBoundary := by
  cases o <;> simp [shift]

theorem shift_eq_failed_iff {o : Outcome} : o.shift k = failed ↔ o = failed := by
  cases o <;> simp [shift]

theorem shift_eq_matched_iff {o : Outcome} {stop : Nat} {t : Captures} :
    o.shift k = matched stop t ↔
      ∃ stop' t', o = matched stop' t' ∧ stop = k + stop' ∧ t = t'.shift k := by
  cases o with
  | offBoundary => simp [shift]
  | failed => simp [shift]
  | matched stop' t' =>
    simp only [shift, matched.injEq]
    constructor
    · intro h
      exact ⟨stop', t', ⟨rfl, rfl⟩, h.1.symm, h.2.symm⟩
    · intro h
      obtain ⟨_, _, ⟨rfl, rfl⟩, hstop, ht⟩ := h
      exact ⟨hstop.symm, ht.symm⟩

theorem shift_orElse {o : Outcome} {next next' : Unit → Outcome}
    (h : next' () = (next ()).shift k) : (o.shift k).orElse next' = (o.orElse next).shift k := by
  cases o with
  | offBoundary => rfl
  | failed => exact h
  | matched stop t => rfl

theorem shift_andThen {o : Outcome} {next next' : Nat → Captures → Outcome}
    (h : ∀ stop t, next' (k + stop) (t.shift k) = (next stop t).shift k) :
    (o.shift k).andThen next' = (o.andThen next).shift k := by
  cases o with
  | offBoundary => rfl
  | failed => rfl
  | matched stop t => exact h stop t

theorem tryEach_shift {α : Type} {next next' : α → Outcome} {as : List α}
    (h : ∀ a ∈ as, next' a = (next a).shift k) : tryEach next' as = (tryEach next as).shift k := by
  induction as with
  | nil => rfl
  | cons a as ih =>
    have hhead := h a List.mem_cons_self
    have htail := ih fun b hb => h b (List.mem_cons_of_mem _ hb)
    rw [tryEach_cons, tryEach_cons, hhead]
    exact shift_orElse htail

end Outcome

open Outcome

theorem advance_shift (k p stop : Nat) (t : Captures) :
    advance (k + p) (k + stop) (t.shift k) = (advance p stop t).shift k := by
  unfold advance
  simp only [Nat.add_lt_add_iff_left]
  split <;> rfl

/-- The loop over the repetitions of a group makes the same repetitions further on. -/
theorem chain_shift {step step' : Nat → Outcome} (h : ∀ p, step' (k + p) = (step p).shift k)
    (fuel p : Nat) :
    chain step' fuel (k + p) =
      (chain step fuel p).map fun reps => reps.map fun rep => (k + rep.1, rep.2.shift k) := by
  induction fuel generalizing p with
  | zero => rfl
  | succ fuel ih =>
    rw [chain, chain, h]
    cases step p with
    | offBoundary => rfl
    | failed => rfl
    | matched stop t =>
      simp only [shift, ih, Option.map_map]
      rfl

theorem matchAlternatives_shift {alternatives : List (List Piece)}
    {next next' : Nat → Captures → Outcome}
    (hparts : ∀ part ∈ alternatives,
      matchPieces s part (k + p) (t.shift k) = (matchPieces v part p t).shift k)
    (hnext : ∀ stop u, next' (k + stop) (u.shift k) = (next stop u).shift k) :
    matchAlternatives s alternatives (k + p) (t.shift k) next' =
      (matchAlternatives v alternatives p t next).shift k := by
  induction alternatives with
  | nil => rfl
  | cons part alternatives ih =>
    have hpart := hparts part List.mem_cons_self
    have hlater := ih fun b hb => hparts b (List.mem_cons_of_mem _ hb)
    rw [matchAlternatives, matchAlternatives, hpart, shift_andThen hnext]
    exact shift_orElse hlater

/-- **A match further on:** with something in front of the line, from the offset moved on and with
the captures moved on, the outcome is the same moved on. The offset need not be a boundary, and the
captures may hold any spans. -/
theorem matchPieces_shift (h : s.text = u ++ v.text) (pieces : List Piece) (p : Nat)
    (t : Captures) :
    matchPieces s pieces (Text.size u + p) (t.shift (Text.size u)) =
      (matchPieces v pieces p t).shift (Text.size u) := by
  induction pieces using pieces_induction generalizing p t with
  | nil => rfl
  | atom x q rest ih =>
    rw [matchPieces, matchPieces, matchPiece, matchPiece, matchAtom, matchAtom,
      Subject.ahead_shift h]
    cases v.ahead p with
    | none => rfl
    | some ahead =>
      simp only [Atom.stops_shift, tryEach_map]
      exact tryEach_shift fun m _ => ih m t
  | backref n q rest ih =>
    rw [matchPieces, matchPieces, matchPiece, matchPiece, matchBackref, matchBackref,
      Captures.text?_shift h, Subject.ahead_shift h]
    cases t.text? v n with
    | none => rfl
    | some w =>
      cases v.ahead p with
      | none => rfl
      | some ahead =>
        simp only [Nat.add_assoc]
        split
        · exact ih _ t
        · rfl
  | group number alternatives q rest iha ih =>
    have hparts : ∀ p, ∀ part ∈ alternatives,
        matchPieces s part (Text.size u + p) (t.shift (Text.size u)) =
          (matchPieces v part p t).shift (Text.size u) := fun p part ha => iha part ha p t
    -- what comes after the group goes on from its end and the span that it notes, moved on
    have hfollow : ∀ (stop : Nat) (w : Captures),
        matchPieces s rest (Text.size u + stop)
            ((w.shift (Text.size u)).note number ⟨Text.size u + p, Text.size u + stop⟩) =
          (matchPieces v rest stop (w.note number ⟨p, stop⟩)).shift (Text.size u) := by
      intro stop w
      have hnote := Captures.note_shift (Text.size u) w number ⟨p, stop⟩
      rw [← ih, ← hnote]
      rfl
    cases q with
    | one =>
      rw [matchPieces, matchPieces, matchPiece, matchPiece]
      exact matchAlternatives_shift (hparts p) hfollow
    | optional =>
      rw [matchPieces, matchPieces, matchPiece, matchPiece, matchAlternatives_shift (hparts p) hfollow]
      exact shift_orElse (ih p t)
    | plus =>
      have hstep : ∀ p,
          matchAlternatives s alternatives (Text.size u + p) (t.shift (Text.size u))
              (advance (Text.size u + p)) =
            (matchAlternatives v alternatives p t (advance p)).shift (Text.size u) :=
        fun p => matchAlternatives_shift (hparts p) (advance_shift _ p)
      rw [matchPieces, matchPieces, matchPiece_group_plus, matchPiece_group_plus, repetitions,
        repetitions, Subject.size_shift h, Nat.add_sub_add_left, chain_shift hstep]
      cases chain (fun p => matchAlternatives v alternatives p t (advance p)) (v.size - p + 1) p with
      | none => rfl
      | some reps =>
        simp only [Option.map_some, ← List.map_reverse, tryEach_map]
        exact tryEach_shift fun rep _ => hfollow rep.1 rep.2

/-- **Translation invariance.** With text in front of a line, a match from an offset moved on, with
the captures moved on, has the outcome that it has without the text: it looks from a bad offset or
fails if the other does, and otherwise ends as much further on and leaves the other's captures moved
on. Neither the offset nor the spans in the captures have to lie on boundaries of the line. -/
theorem matchPieces_translation (u v : String) (pieces : List Piece) (p : Nat) (t : Captures) :
    let k := Text.size u.toList
    let further := matchPieces (.ofString (u ++ v)) pieces (k + p) (t.shift k)
    let here := matchPieces (.ofString v) pieces p t
    (further = .offBoundary ↔ here = .offBoundary) ∧ (further = .failed ↔ here = .failed) ∧
      ∀ e w, further = .matched e w ↔
        ∃ e' w', here = .matched e' w' ∧ e = k + e' ∧ w = w'.shift k := by
  intro k further here
  have htext : (Subject.ofString (u ++ v)).text = u.toList ++ (Subject.ofString v).text := by simp
  have hshift : further = here.shift k := matchPieces_shift htext pieces p t
  rw [hshift]
  exact ⟨shift_eq_offBoundary_iff, shift_eq_failed_iff, fun e w => shift_eq_matched_iff⟩

/-- A regex accepts an offset further on if it accepts the offset without what stands in front. -/
theorem Regex.accepts_shift (r : Regex) (h : s.text = u ++ v.text) (p : Nat) :
    r.accepts s (Text.size u + p) = r.accepts v p := by
  have hmatch := matchPieces_shift h r.program.pieces p .empty
  rw [Captures.shift_empty] at hmatch
  unfold accepts matchAt
  rw [hmatch, Subject.size_shift h]
  cases matchPieces v r.program.pieces p .empty with
  | offBoundary => rfl
  | failed => rfl
  | matched stop w =>
    have hstop : (Text.size u + stop == Text.size u + v.size) = (stop == v.size) := by
      rw [Bool.eq_iff_iff, beq_iff_eq, beq_iff_eq, Nat.add_left_cancel_iff]
    simp only [Outcome.shift, hstop]

/-- A `^` in front of a pattern changes where its matches may start, and nothing else. -/
theorem Regex.ofPattern_caret {pattern : String} (h : pattern.toList.head? ≠ some '^') :
    ofPattern ("^" ++ pattern) = { ofPattern pattern with startAnchored := true } := by
  have hbody : Anchored.ofPattern pattern.toList = Anchored.dropDollar pattern.toList false := by
    rw [Anchored.ofPattern]
    intro body hbody
    exact h (by rw [hbody]; rfl)
  have hcaret : Anchored.ofPattern ("^" ++ pattern).toList =
      Anchored.dropDollar pattern.toList true := by
    rw [String.toList_append]
    rfl
  unfold ofPattern
  rw [hbody, hcaret]
  unfold Anchored.dropDollar
  split <;> rfl

/-- Without `^` a line matches if some offset of it is accepted; with `^` the offset is `0`. -/
theorem Regex.isMatch_unanchored {r : Regex} (h : r.startAnchored = false) (line : String) :
    r.isMatch line = true ↔
      ∃ u v : String, line = u ++ v ∧ { r with startAnchored := true }.isMatch v = true := by
  have haccepts : ∀ u v : String,
      r.accepts (.ofString (u ++ v)) (Text.size u.toList) =
        { r with startAnchored := true }.isMatch v := by
    intro u v
    have htext : (Subject.ofString (u ++ v)).text = u.toList ++ (Subject.ofString v).text := by
      simp
    have hshift := r.accepts_shift htext 0
    have hzero : { r with startAnchored := true }.isMatch v = r.accepts (.ofString v) 0 :=
      Bool.or_false _
    rw [hzero, ← hshift, Nat.add_zero]
  have hany : r.isMatch line = true ↔
      ∃ l w, line.toList = l ++ w ∧ r.accepts (.ofString line) (Text.size l) = true := by
    unfold isMatch starts
    simp only [h, Bool.false_eq_true, if_false, List.any_eq_true, Subject.starts,
      Text.mem_boundaries_iff, Subject.text_ofString]
    constructor
    · rintro ⟨start, ⟨l, w, hline, rfl⟩, haccept⟩
      exact ⟨l, w, hline, haccept⟩
    · rintro ⟨l, w, hline, haccept⟩
      exact ⟨Text.size l, ⟨l, w, hline, rfl⟩, haccept⟩
  rw [hany]
  constructor
  · rintro ⟨l, w, hline, haccept⟩
    have hjoin : line = String.ofList l ++ String.ofList w := by
      rw [← String.toList_inj, hline]
      simp
    refine ⟨.ofList l, .ofList w, hjoin, ?_⟩
    rw [← haccepts, ← hjoin, String.toList_ofList]
    exact haccept
  · rintro ⟨u, v, rfl, hv⟩
    refine ⟨u.toList, v.toList, String.toList_append, ?_⟩
    rw [haccepts]
    exact hv

/-- **A search without `^`** finds something in a line if the pattern with `^` matches what is left
of the line from some place on, its end included. So text in front of a line takes no match away. -/
theorem isMatch_iff_exists_suffix (line pattern : String) (h : pattern.toList.head? ≠ some '^') :
    (isMatch line pattern = true ↔
      ∃ u v : String, line = u ++ v ∧ isMatch v ("^" ++ pattern) = true) ∧
      ∀ w : String, isMatch line pattern = true → isMatch (w ++ line) pattern = true := by
  have hstart : (Regex.ofPattern pattern).startAnchored = false := by
    rw [← Bool.not_eq_true, Regex.startAnchored_iff]
    exact h
  have hsplit : ∀ line, isMatch line pattern = true ↔
      ∃ u v : String, line = u ++ v ∧ isMatch v ("^" ++ pattern) = true := by
    intro line
    unfold isMatch
    rw [Regex.ofPattern_caret h]
    exact Regex.isMatch_unanchored hstart line
  refine ⟨hsplit line, fun w hline => ?_⟩
  obtain ⟨u, v, rfl, hv⟩ := (hsplit line).1 hline
  exact (hsplit (w ++ (u ++ v))).2 ⟨w ++ u, v, by rw [String.append_assoc], hv⟩

/-- A group, a reference back to it and a parenthesis that nothing closes, at the end of a line. -/
theorem isMatch_iff_exists_suffix_unclosed :
    "(.)\\1($".toList.head? ≠ some '^' ∧
      isMatch "aéé(" "(.)\\1($" = true ∧
      (∃ u v : String, "aéé(" = u ++ v ∧ isMatch v ("^" ++ "(.)\\1($") = true) ∧
      isMatch ("ü" ++ "aéé(") "(.)\\1($" = true := by
  have hcaret : "(.)\\1($".toList.head? ≠ some '^' := by decide
  have hline : isMatch "aéé(" "(.)\\1($" = true := by decide +kernel
  obtain ⟨hsplit, hfront⟩ := isMatch_iff_exists_suffix "aéé(" "(.)\\1($" hcaret
  exact ⟨hcaret, hline, hsplit.1 hline, hfront "ü" hline⟩

end LineSearch
