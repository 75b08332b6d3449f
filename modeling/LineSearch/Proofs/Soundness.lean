import LineSearch.Proofs.Paths
import LineSearch.Proofs.Search

/-!
# The search is sound

* `matched_derives`: a match that the search finds is a derivation, captures included, and a line
  that matches has a derivation of the pattern that starts and ends where the anchors say.
-/

namespace LineSearch

variable {s : Subject} {pieces : List Piece} {p e : Nat} {t u : Captures}

theorem derives_of_matchPieces (hp : p ∈ s.starts) (h : matchPieces s pieces p t = .matched e u) :
    Derives s pieces p t e u := by
  rw [matchPieces_eq_ofPaths hp, Outcome.ofPaths_eq_matched_iff] at h
  exact derives_of_mem_paths hp (List.mem_of_mem_head? h)

/-- **The search is sound.** A match that it finds from a boundary is a derivation with these
captures. If a line matches a pattern, some derivation of the pattern with no captures to begin
with starts at a boundary of the line, at `0` if the pattern begins with `^`, and it ends with the
line if the pattern ends with `$`. -/
theorem matched_derives :
    (∀ (s : Subject) (pieces : List Piece) (p : Nat) (t : Captures) (e : Nat) (u : Captures),
        p ∈ s.starts → matchPieces s pieces p t = .matched e u → Derives s pieces p t e u) ∧
      ∀ line pattern : String, isMatch line pattern = true →
        ∃ start ∈ (Subject.ofString line).starts, ∃ stop u,
          (pattern.toList.head? = some '^' → start = 0) ∧
          (pattern.toList.getLast? = some '$' → stop = (Subject.ofString line).size) ∧
          Derives (.ofString line) (Regex.ofPattern pattern).program.pieces start .empty stop u := by
  refine ⟨?_, ?_⟩
  · intro s pieces p t e u hp h
    exact derives_of_matchPieces hp h
  · intro line pattern h
    obtain ⟨start, hstart, h0, stop, u, hmatch, hstop⟩ := (isMatch_iff line pattern).1 h
    exact ⟨start, hstart, stop, u, h0, hstop, derives_of_matchPieces hstart hmatch⟩

/-- A repeated group that gives its last repetition back for the text that the one before it
captured. -/
theorem matched_derives_giving_back :
    0 ∈ (Subject.ofString "bééx").starts ∧
      Derives (.ofString "bééx") (Regex.ofPattern "((é)|b)+\\2").program.pieces 0 .empty 5
        ⟨[some ⟨0, 3⟩, some ⟨1, 3⟩]⟩ ∧
      isMatch "bééx" "^((é)|b)+\\2x$" = true ∧
      ∃ start ∈ (Subject.ofString "bééx").starts, ∃ stop u,
        ("^((é)|b)+\\2x$".toList.head? = some '^' → start = 0) ∧
        ("^((é)|b)+\\2x$".toList.getLast? = some '$' → stop = (Subject.ofString "bééx").size) ∧
        Derives (.ofString "bééx") (Regex.ofPattern "^((é)|b)+\\2x$").program.pieces start .empty
          stop u := by
  have hp : 0 ∈ (Subject.ofString "bééx").starts := Subject.zero_mem_starts
  have hmatch : matchPieces (.ofString "bééx") (Regex.ofPattern "((é)|b)+\\2").program.pieces 0
      .empty = .matched 5 ⟨[some ⟨0, 3⟩, some ⟨1, 3⟩]⟩ := by decide +kernel
  have hline : isMatch "bééx" "^((é)|b)+\\2x$" = true := by decide +kernel
  exact ⟨hp, matched_derives.1 _ _ _ _ _ _ hp hmatch, hline, matched_derives.2 _ _ hline⟩

end LineSearch
