import LineSearch.Pattern.Lexeme

/-!
# Reading a pattern

* `parse`: the pieces of a pattern, with no group numbered yet.
* `parse_cons`: the piece of its first lexeme and the pieces of what follows.

Every pattern can be read: what has no meaning as an operator stands for itself.
-/

namespace LineSearch

/-- The pieces of a pattern. -/
def parse : List Symbol → List Piece
  | [] => []
  | a :: s =>
    match _h : lexeme a s with
    | (.group body q, rest) =>
      .group none ((alternatives body).attach.map fun ⟨part, _⟩ => parse part) q :: parse rest
    | (.atom x q, rest) => .atom x q :: parse rest
    | (.backref n, rest) => .backref n .one :: parse rest
    | (.bare c, rest) => .atom (.literal c) .one :: parse rest
termination_by s => s.length
decreasing_by
  all_goals
    have hle := weight_lexeme_le a s
    simp only [_h, Lexeme.weight] at hle
  · have := length_le_of_mem_splitBars ‹part ∈ alternatives body›
    simp only [List.length_cons]
    omega
  all_goals simp only [List.length_cons]; omega

/-- The piece of a lexeme. -/
def Lexeme.piece : Lexeme → Piece
  | group body q => .group none ((alternatives body).map parse) q
  | atom x q => .atom x q
  | backref n => .backref n .one
  | bare c => .atom (.literal c) .one

@[simp] theorem parse_nil : parse [] = [] := by
  rw [parse]

theorem parse_cons (a : Symbol) (s : List Symbol) :
    parse (a :: s) = (lexeme a s).1.piece :: parse (lexeme a s).2 := by
  rw [parse]
  split <;> simp_all [Lexeme.piece]

end LineSearch
