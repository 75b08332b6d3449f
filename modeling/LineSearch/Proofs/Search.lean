import LineSearch.Regex

/-!
# What a search answers

* `Regex.startAnchored_iff`, `Regex.endAnchored_iff`: the anchors as they stand in the pattern.
* `isMatch_iff`: a line matches if at some boundary of it the first match found ends where the
  pattern wants it to.
-/

namespace LineSearch

theorem Anchored.dropDollar_atEnd (body : List Char) (atStart : Bool) :
    (Anchored.dropDollar body atStart).atStart = atStart ∧
      ((Anchored.dropDollar body atStart).atEnd = true ↔ body.getLast? = some '$') := by
  unfold Anchored.dropDollar
  split
  · rename_i h
    exact ⟨rfl, fun _ => h, fun _ => rfl⟩
  · rename_i h
    exact ⟨rfl, fun h' => (Bool.false_ne_true h').elim, fun h' => absurd h' h⟩

/-- A pattern has the start anchor if it begins with `^`. -/
theorem Regex.startAnchored_iff (pattern : String) :
    (Regex.ofPattern pattern).startAnchored = true ↔ pattern.toList.head? = some '^' := by
  unfold Regex.ofPattern Anchored.ofPattern
  simp only
  split
  · rename_i body h
    simp [(Anchored.dropDollar_atEnd body true).1, h]
  · rename_i h
    rw [(Anchored.dropDollar_atEnd _ false).1]
    cases hp : pattern.toList with
    | nil => simp
    | cons c cs =>
      refine ⟨fun h' => (Bool.false_ne_true h').elim, ?_⟩
      intro h'
      rw [List.head?_cons, Option.some.injEq] at h'
      exact absurd (h' ▸ hp) (h cs)

/-- A pattern has the end anchor if it ends with `$`. -/
theorem Regex.endAnchored_iff (pattern : String) :
    (Regex.ofPattern pattern).endAnchored = true ↔ pattern.toList.getLast? = some '$' := by
  unfold Regex.ofPattern Anchored.ofPattern
  simp only
  split
  · rename_i body h
    rw [(Anchored.dropDollar_atEnd body true).2, h]
    cases body with
    | nil => simp
    | cons c cs => rw [List.getLast?_cons_cons]
  · rw [(Anchored.dropDollar_atEnd _ false).2]

/-- **What a search answers:** whether at some boundary, the first one if the pattern begins with
`^`, the first match found ends somewhere, and at the end of the line if the pattern ends with
`$`. -/
theorem isMatch_iff (line pattern : String) :
    isMatch line pattern = true ↔
      ∃ start ∈ (Subject.ofString line).starts, (pattern.toList.head? = some '^' → start = 0) ∧
        ∃ stop u, (Regex.ofPattern pattern).matchAt (.ofString line) start = .matched stop u ∧
          (pattern.toList.getLast? = some '$' → stop = (Subject.ofString line).size) := by
  have haccepts : ∀ start, (Regex.ofPattern pattern).accepts (.ofString line) start = true ↔
      ∃ stop u, (Regex.ofPattern pattern).matchAt (.ofString line) start = .matched stop u ∧
        (pattern.toList.getLast? = some '$' → stop = (Subject.ofString line).size) := by
    intro start
    rw [← Regex.endAnchored_iff, Regex.accepts]
    cases (Regex.ofPattern pattern).matchAt (.ofString line) start with
    | offBoundary => simp
    | failed => simp
    | matched stop u =>
      cases (Regex.ofPattern pattern).endAnchored <;> simp
  rw [isMatch, Regex.isMatch, List.any_eq_true, ← Regex.startAnchored_iff]
  simp only [haccepts, Regex.starts]
  cases (Regex.ofPattern pattern).startAnchored with
  | false => simp
  | true =>
    constructor
    · rintro ⟨start, h0, h⟩
      rw [if_pos rfl, List.mem_singleton] at h0
      exact ⟨start, h0 ▸ List.mem_cons_self, fun _ => h0, h⟩
    · rintro ⟨start, -, h0, h⟩
      exact ⟨start, by rw [if_pos rfl, h0 rfl]; exact List.mem_singleton_self 0, h⟩

end LineSearch
