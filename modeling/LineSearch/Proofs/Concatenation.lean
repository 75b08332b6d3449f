import LineSearch.Proofs.Shape

/-!
# One pattern after another

Reading looks ahead for the bracket that closes what has begun, as far as the pattern goes. But if
a pattern closes all that it opens and ends in no lone backslash, then no look ahead from it ever
reaches past its end, and what is written after it is read as if it stood alone.

* `symbols_append`: no backslash pairs with what follows the pattern.
* `closeSet_append_right`, `quantified_append`: a bracket that is closed, and a quantifier, are the
  same with more symbols at the end.
* `lexeme_append`, `parse_append`: so is what is read first, and what is read at all.
* `numberPieces_append`: what follows counts on from the last number in use.
* `compile_append`: the program of two patterns is made up of their programs.
-/

namespace LineSearch

variable {a : Symbol} {s t content rest : List Symbol} {c : Char} {cs : List Char}

section Symbols

theorem symbols_plain (hc : c ≠ '\\') (cs : List Char) :
    symbols (c :: cs) = .plain c :: symbols cs := by
  rw [symbols]
  intro d ds h
  exact absurd h hc

/-- **No backslash reaches over the end:** unless a pattern ends in a lone one, its symbols come
before those of what follows. -/
theorem symbols_append (p q : List Char) (h : (symbols p).getLast? ≠ some (.plain '\\')) :
    symbols (p ++ q) = symbols p ++ symbols q := by
  have htail : ∀ {a : Symbol} {s : List Symbol}, (a :: s).getLast? ≠ some (.plain '\\') →
      s.getLast? ≠ some (.plain '\\') := by
    intro a s h hs
    rw [List.getLast?_cons, hs] at h
    exact h rfl
  fun_induction symbols p with
  | case1 c cs ih =>
    rw [List.cons_append, List.cons_append, symbols, ih (htail h)]
    rfl
  | case2 c cs hpair ih =>
    -- a backslash would be paired, or would be the last symbol
    have hc : c ≠ '\\' := by
      intro hc
      cases cs with
      | nil =>
        rw [hc] at h
        exact h rfl
      | cons d ds => exact hpair d ds hc rfl
    rw [List.cons_append, symbols_plain hc, ih (htail h)]
    rfl
  | case3 => rfl

/-- The first symbol is a sign only if the first character is. -/
theorem noSign_symbols (h : cs.head? ≠ some '+' ∧ cs.head? ≠ some '?') : NoSign (symbols cs) := by
  unfold NoSign
  fun_cases symbols cs with
  | case1 c cs => simp
  | case2 c cs hpair =>
    simp only [List.head?_cons, ne_eq, Option.some.injEq] at h
    simp [h]
  | case3 => simp

end Symbols

section Reading

theorem NoSign.append (hs : NoSign s) (ht : NoSign t) : NoSign (s ++ t) := by
  cases s with
  | nil => exact ht
  | cons a s => exact hs

/-- More symbols at the end do not change where a class ends. -/
theorem closeSet_append_right (h : closeSet s = some (content, rest)) (t : List Symbol) :
    closeSet (s ++ t) = some (content, rest ++ t) := by
  have hs := append_of_closeSet h
  rw [hs, List.append_assoc, List.cons_append]
  exact closeSet_append (not_mem_of_closeSet h) (rest ++ t)

/-- More symbols at the end do not change a quantifier, unless they begin with the sign of one. -/
theorem quantified_append (f : Quantifier → Lexeme) (s : List Symbol) (ht : NoSign t) :
    quantified f (s ++ t) = ((quantified f s).1, (quantified f s).2 ++ t) := by
  obtain ⟨q, rest, heq, hq⟩ := quantified_taken f s
  rw [heq, hq.front, List.append_assoc]
  cases q with
  | plus => rfl
  | optional => rfl
  | one =>
    have hrest : NoSign (rest ++ t) := (hq.noSign rfl).append ht
    exact quantified_sign f .one hrest

theorem escape_append (c : Char) (s : List Symbol) (ht : NoSign t) :
    escape c (s ++ t) = ((escape c s).1, (escape c s).2 ++ t) := by
  unfold escape
  split
  · rfl
  · split
    · exact quantified_append _ s ht
    · split
      · exact quantified_append _ s ht
      · split <;> exact quantified_append _ s ht

/-- **What is read first is read alike** with more symbols at the end, unless it is a bracket that
was never closed. -/
theorem lexeme_append (hbare : ∀ c, (lexeme a s).1 ≠ .bare c) (ht : NoSign t) :
    lexeme a (s ++ t) = ((lexeme a s).1, (lexeme a s).2 ++ t) := by
  unfold lexeme at hbare ⊢
  split
  · exact escape_append _ s ht
  · cases hclose : closeGroup 0 s with
    | none =>
      simp only [hclose] at hbare
      exact absurd rfl (hbare '(')
    | some found =>
      obtain ⟨body, rest⟩ := found
      rw [closeGroup_append_right hclose]
      exact quantified_append _ rest ht
  · cases hclose : closeSet s with
    | none =>
      simp only [hclose] at hbare
      exact absurd rfl (hbare '[')
    | some found =>
      obtain ⟨content, rest⟩ := found
      rw [closeSet_append_right hclose]
      exact quantified_append _ rest ht
  · exact quantified_append _ s ht
  · exact quantified_append _ s ht

/-- Only brackets are read as characters that are bare. -/
theorem eq_of_lexeme_bare (h : (lexeme a s).1 = .bare c) : c = '(' ∨ c = '[' := by
  have hread := lexeme_readsAs a s
  generalize lexeme a s = found at h hread
  cases hread with
  | bareGroup hclose =>
    cases h
    exact .inl rfl
  | bareSet hclose =>
    cases h
    exact .inr rfl
  | _ => cases h

/-- **What follows a pattern is read by itself,** if no bracket of the pattern is left open. -/
theorem parse_append (h : ∀ c, c = '(' ∨ c = '[' → ∀ q, .atom (.literal c) q ∉ parse s)
    (ht : NoSign t) : parse (s ++ t) = parse s ++ parse t := by
  induction s using lexeme_induction with
  | nil =>
    rw [parse_nil]
    rfl
  | cons a s ih =>
    rw [parse_cons] at h ⊢
    have hbare : ∀ c, (lexeme a s).1 ≠ .bare c := by
      intro c hc
      have hmem : Piece.atom (.literal c) .one ∈ (lexeme a s).1.piece :: parse (lexeme a s).2 := by
        rw [hc]
        exact List.mem_cons_self
      exact h c (eq_of_lexeme_bare hc) .one hmem
    have hrest := ih fun c hc q hmem => h c hc q (List.mem_cons_of_mem _ hmem)
    rw [List.cons_append, parse_cons, lexeme_append hbare ht, hrest]
    rfl

end Reading

/-- The groups of what follows count on from the last number in use. -/
theorem numberPieces_append (taken : Nat) (l r : List Piece) :
    Piece.numberPieces taken (l ++ r) =
      let left := Piece.numberPieces taken l
      let right := Piece.numberPieces left.2 r
      (left.1 ++ right.1, right.2) := by
  induction l generalizing taken with
  | nil => rfl
  | cons piece l ih =>
    rw [List.cons_append, Piece.numberPieces_cons, Piece.numberPieces_cons]
    simp only [ih, List.cons_append]

/-- **Compiling is compositional.** Suppose that a pattern leaves no parenthesis or bracket open and
no backslash alone, so that its program has none of these standing for itself outside of its groups.
Whatever is written after it, malformed or not, but for the sign of a quantifier, compiles as it
does by itself, with the numbers taken that the first pattern has in use. -/
theorem compile_append (p q : List Char) (taken : Nat)
    (hbare : ∀ c ∈ ['(', '[', '\\'], ∀ r, .atom (.literal c) r ∉ (compile p taken).pieces)
    (hsign : q.head? ≠ some '+' ∧ q.head? ≠ some '?') :
    let first := compile p taken
    let second := compile q first.groupCount
    compile (p ++ q) taken = ⟨first.pieces ++ second.pieces, second.groupCount⟩ := by
  intro first second
  have hmem : ∀ c ∈ ['(', '[', '\\'], ∀ r, .atom (.literal c) r ∉ parse (symbols p) := by
    intro c hc r h
    exact hbare c hc r ((mem_numberPieces_iff (by simp)).2 h)
  have hlast : (symbols p).getLast? ≠ some (.plain '\\') := by
    intro hlast
    obtain ⟨r, h⟩ := (backslash_mem_parse (paired_symbols p)).2 hlast
    exact hmem '\\' (by simp) r h
  have hopen : ∀ c, c = '(' ∨ c = '[' → ∀ r, .atom (.literal c) r ∉ parse (symbols p) := by
    intro c hc
    apply hmem
    rcases hc with rfl | rfl <;> simp
  have hparse : parse (symbols (p ++ q)) = parse (symbols p) ++ parse (symbols q) := by
    rw [symbols_append p q hlast]
    exact parse_append hopen (noSign_symbols hsign)
  unfold compile
  rw [hparse, numberPieces_append]
  rfl

/-- The first pattern has an open bracket inside a group, which the second one does not close; the
second one is malformed itself. -/
theorem compile_append_malformed :
    (∀ c ∈ ['(', '[', '\\'], ∀ r,
        .atom (.literal c) r ∉ (compile "([|(é)+)[\\](]?".toList 2).pieces) ∧
      ("])(\\(x)(".toList.head? ≠ some '+' ∧ "])(\\(x)(".toList.head? ≠ some '?') ∧
      (compile "([|(é)+)[\\](]?".toList 2).groupCount = 4 ∧
      compile ("([|(é)+)[\\](]?".toList ++ "])(\\(x)(".toList) 2 =
        ⟨(compile "([|(é)+)[\\](]?".toList 2).pieces ++ (compile "])(\\(x)(".toList 4).pieces, 5⟩ := by
  have hbare : ∀ c ∈ ['(', '[', '\\'], ∀ r,
      .atom (.literal c) r ∉ (compile "([|(é)+)[\\](]?".toList 2).pieces := by
    intro c hc r
    simp only [List.mem_cons, List.not_mem_nil, or_false] at hc
    rcases hc with rfl | rfl | rfl <;> cases r <;> decide +kernel
  have hsign : "])(\\(x)(".toList.head? ≠ some '+' ∧ "])(\\(x)(".toList.head? ≠ some '?' := by
    decide
  have hcount : (compile "([|(é)+)[\\](]?".toList 2).groupCount = 4 := by decide +kernel
  have hcount' : (compile "])(\\(x)(".toList 4).groupCount = 5 := by decide +kernel
  refine ⟨hbare, hsign, hcount, ?_⟩
  have happend := compile_append "([|(é)+)[\\](]?".toList "])(\\(x)(".toList 2 hbare hsign
  simp only [hcount, hcount'] at happend
  exact happend

end LineSearch
