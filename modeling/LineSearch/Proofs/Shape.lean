import Mathlib.Algebra.Ring.Parity
import Mathlib.Data.List.Chain
import Mathlib.Data.List.DropRight
import LineSearch.Proofs.GroupNumbers
import LineSearch.Proofs.Spelling

/-!
# The shape of programs

What the pieces of a program look like, however malformed its pattern is.

* `mem_parse`: each piece is read from the symbols at some place of the pattern; `literal_of_piece`,
  `backref_of_piece`, `group_of_piece`: what a piece tells about these symbols.
* `isChain_parse`: a sign stands for itself only where no quantifier can be taken.
* `Enclosed`, `sequence_parse`: an alternative of a group, at any depth, is read from symbols whose
  parentheses are closed and which hold no lone backslash.
* `backslash_mem_parse`, `symbols_getLast?`: a lone backslash is left by an odd number of them at
  the end of the pattern.
* `Piece.outline`: numbering does not change what the pieces of a sequence are.
* `Shape`, `compile_shape`: the shape of a program.
-/

namespace LineSearch

variable {a : Symbol} {s : List Symbol} {pieces seq : List Piece} {piece : Piece} {c : Char}
  {n k taken : Nat} {q : Quantifier} {number : Option GroupNumber} {alts : List (List Piece)}

section Lexeme

theorem Quantifier.TakenFrom.eq_one {rest : List Symbol} (h : q.TakenFrom [] rest) : q = .one := by
  have hfront := h.front
  cases q with
  | one => rfl
  | plus => cases hfront
  | optional => cases hfront

/-- A literal is read from its character. A parenthesis or bracket that stands for itself is never
closed and takes no quantifier; neither does a character at the end. -/
theorem literal_of_piece (h : (lexeme a s).1.piece = .atom (.literal c) q) :
    a = .plain c ∧ c ≠ '.' ∧ (c = '(' → closeGroup 0 s = none) ∧
      (c = '(' ∨ c = '[' ∨ s = [] → q = .one) := by
  have hread := lexeme_readsAs a s
  generalize lexeme a s = found at h hread
  cases hread with
  | backref hdigit => cases h
  | escaped hx hq =>
    -- an escaped character is no literal
    cases h
    cases hx
  | group hclose hq => cases h
  | bareGroup hclose =>
    cases h
    exact ⟨rfl, by decide, fun _ => hclose, fun _ => rfl⟩
  | set hclose hq => cases h
  | bareSet hclose =>
    cases h
    exact ⟨rfl, by decide, fun h => absurd h (by decide), fun _ => rfl⟩
  | any hq => cases h
  | literal hgroup hset hany hq =>
    cases h
    refine ⟨rfl, hany, fun h => absurd h hgroup, fun h => ?_⟩
    rcases h with h | h | h
    · exact absurd h hgroup
    · exact absurd h hset
    · subst h
      exact hq.eq_one

/-- A back-reference is one digit other than zero, without a quantifier. -/
theorem backref_of_piece (h : (lexeme a s).1.piece = .backref n q) : 1 ≤ n ∧ n ≤ 9 ∧ q = .one := by
  have hread := lexeme_readsAs a s
  generalize lexeme a s = found at h hread
  cases hread with
  | @backref d s hdigit =>
    cases h
    have hlo : 49 ≤ d.toNat := hdigit.1
    have hhi : d.toNat ≤ 57 := hdigit.2
    have hzero : '0'.toNat = 48 := rfl
    exact ⟨by omega, by omega, rfl⟩
  | _ => cases h

/-- A group is read from a body up to the parenthesis that closes it. -/
theorem group_of_piece (h : (lexeme a s).1.piece = .group number alts q) :
    ∃ body rest, closeGroup 0 s = some (body, rest) ∧ alts = (alternatives body).map parse := by
  have hread := lexeme_readsAs a s
  generalize lexeme a s = found at h hread
  cases hread with
  | group hclose hq =>
    cases h
    exact ⟨_, _, hclose, rfl⟩
  | _ => cases h

end Lexeme

/-- **Each piece is read somewhere:** from a symbol of the pattern and what follows it. -/
theorem mem_parse (h : piece ∈ parse s) :
    ∃ l a r, s = l ++ a :: r ∧ piece = (lexeme a r).1.piece := by
  induction s using lexeme_induction with
  | nil =>
    rw [parse_nil] at h
    cases h
  | cons a s ih =>
    rw [parse_cons] at h
    rcases List.mem_cons.1 h with h | h
    · exact ⟨[], a, s, rfl, h⟩
    · obtain ⟨l, b, r, hrest, hpiece⟩ := ih h
      obtain ⟨w, -, heq⟩ := lexeme_reads a s
      refine ⟨w ++ l, b, r, ?_, hpiece⟩
      rw [heq, hrest, List.append_assoc]

theorem backref_mem_parse (h : .backref n q ∈ parse s) : 1 ≤ n ∧ n ≤ 9 ∧ q = .one := by
  obtain ⟨l, a, r, -, hpiece⟩ := mem_parse h
  exact backref_of_piece hpiece.symm

theorem literal_mem_parse (h : Paired s) (hmem : .atom (.literal c) q ∈ parse s) :
    c ≠ '.' ∧ (c = '(' ∨ c = '[' ∨ c = '\\' → q = .one) := by
  obtain ⟨l, a, r, hs, hpiece⟩ := mem_parse hmem
  obtain ⟨ha, hdot, -, hone⟩ := literal_of_piece hpiece.symm
  refine ⟨hdot, fun hc => ?_⟩
  rcases hc with hc | hc | hc
  · exact hone (.inl hc)
  · exact hone (.inr (.inl hc))
  · -- nothing follows a backslash that stands for itself
    rw [ha, hc] at hs
    exact hone (.inr (.inr (h l r hs)))

section Signs

/-- A sign that stands for itself. -/
def Piece.IsSign (piece : Piece) : Prop :=
  ∃ c q, piece = .atom (.literal c) q ∧ (c = '+' ∨ c = '?')

/-- A sign that follows the piece is not taken for its quantifier. -/
inductive Piece.TakesNoSign : Piece → Prop
  | backref {n : Nat} {q : Quantifier} : TakesNoSign (.backref n q)
  | bare {c : Char} {q : Quantifier} (h : c = '(' ∨ c = '[') : TakesNoSign (.atom (.literal c) q)
  | quantified {piece : Piece} (h : piece.quantifier ≠ .one) : TakesNoSign piece

theorem Quantifier.TakenFrom.ne_one {rest : List Symbol} (h : q.TakenFrom s rest)
    (hsign : ¬ NoSign rest) : q ≠ .one :=
  fun hq => hsign (h.noSign hq)

/-- A lexeme leaves a sign behind only if it can take none. -/
theorem takesNoSign_of_rest (h : ¬ NoSign (lexeme a s).2) : (lexeme a s).1.piece.TakesNoSign := by
  have hread := lexeme_readsAs a s
  generalize lexeme a s = found at h hread
  cases hread with
  | backref hdigit => exact .backref
  | bareGroup hclose => exact .bare (.inl rfl)
  | bareSet hclose => exact .bare (.inr rfl)
  | escaped hx hq => exact .quantified (hq.ne_one h)
  | group hclose hq => exact .quantified (hq.ne_one h)
  | set hclose hq => exact .quantified (hq.ne_one h)
  | any hq => exact .quantified (hq.ne_one h)
  | literal hgroup hset hany hq => exact .quantified (hq.ne_one h)

theorem sign_of_head? (h : (parse s).head? = some piece) (hsign : piece.IsSign) : ¬ NoSign s := by
  obtain ⟨c, q, rfl, hc⟩ := hsign
  cases s with
  | nil =>
    rw [parse_nil] at h
    cases h
  | cons a s =>
    rw [parse_cons, List.head?_cons, Option.some.injEq] at h
    obtain ⟨rfl, -⟩ := literal_of_piece h
    intro hno
    rcases hc with rfl | rfl
    · exact hno.1 rfl
    · exact hno.2 rfl

/-- **A sign stands for itself** only at the front, or after a piece that takes no sign. -/
theorem isChain_parse (s : List Symbol) :
    (parse s).IsChain fun a b => b.IsSign → a.TakesNoSign := by
  induction s using lexeme_induction with
  | nil =>
    rw [parse_nil]
    exact .nil
  | cons a s ih =>
    rw [parse_cons]
    refine List.isChain_cons.2 ⟨?_, ih⟩
    intro piece hhead hsign
    exact takesNoSign_of_rest (sign_of_head? hhead hsign)

end Signs

section Enclosed

/-- Every parenthesis that opens is closed, and no backslash stands alone. -/
def Enclosed (s : List Symbol) : Prop :=
  GroupsClosed s ∧ ∀ a ∈ s, a ≠ .plain '\\'

theorem Enclosed.paired (h : Enclosed s) : Paired s :=
  paired_of_forall_ne h.2

/-- Where every parenthesis that opens is closed, none is read as standing for itself. -/
theorem GroupsClosed.not_mem_parse (h : GroupsClosed s) (q : Quantifier) :
    .atom (.literal '(') q ∉ parse s := by
  intro hmem
  obtain ⟨l, a, r, rfl, hpiece⟩ := mem_parse hmem
  obtain ⟨rfl, -, hopen, -⟩ := literal_of_piece hpiece.symm
  exact h l r rfl (hopen rfl)

/-- No parenthesis or backslash that is read from enclosed symbols stands for itself. -/
theorem Enclosed.not_mem_parse (h : Enclosed s) (hc : c = '(' ∨ c = '\\') (q : Quantifier) :
    .atom (.literal c) q ∉ parse s := by
  rcases hc with rfl | rfl
  · exact h.1.not_mem_parse q
  · intro hmem
    obtain ⟨l, a, r, rfl, hpiece⟩ := mem_parse hmem
    obtain ⟨rfl, -⟩ := literal_of_piece hpiece.symm
    exact h.2 _ (by simp) rfl

/-- **The alternatives of a group** are read from enclosed symbols, and there is at least one. -/
theorem group_mem_parse (h : Paired s) (hg : .group number alts q ∈ parse s) :
    alts ≠ [] ∧ ∀ part ∈ alts, ∃ s', Enclosed s' ∧ part = parse s' := by
  obtain ⟨l, a, r, rfl, hpiece⟩ := mem_parse hg
  obtain ⟨body, rest, hclose, rfl⟩ := group_of_piece hpiece.symm
  refine ⟨?_, ?_⟩
  · intro hnil
    exact splitBars_ne_nil 0 body (List.map_eq_nil_iff.1 hnil)
  · intro part hpart
    obtain ⟨s', hs', rfl⟩ := List.mem_map.1 hpart
    have hbalanced := balanced_of_mem_splitBars (balanced_of_closeGroup hclose) hs'
    -- the parenthesis that closes the group follows the body
    have hbody : ∀ b ∈ body, b ≠ .plain '\\' := by
      have hpaired : Paired (l ++ [a] ++ body ++ .plain ')' :: rest) := by
        rw [append_of_closeGroup hclose] at h
        simpa using h
      exact hpaired.forall_ne
    refine ⟨s', ⟨hbalanced.groupsClosed, ?_⟩, rfl⟩
    exact fun b hb => hbody b (mem_of_mem_alternatives hs' hb)

/-- **A sequence at any depth** is the whole, or it is read from enclosed symbols. -/
theorem sequence_parse (h : Paired s) (hseq : Sequence (parse s) seq) :
    seq = parse s ∨ ∃ s', Enclosed s' ∧ seq = parse s' := by
  induction hseq with
  | whole => exact .inl rfl
  | alternative _ hg hp ih =>
    rcases ih with rfl | ⟨s', hs', rfl⟩
    · exact .inr ((group_mem_parse h hg).2 _ hp)
    · exact .inr ((group_mem_parse hs'.paired hg).2 _ hp)

/-- So every sequence is read from some symbols with no lone backslash before their end. -/
theorem exists_of_sequence_parse (h : Paired s) (hseq : Sequence (parse s) seq) :
    ∃ s', Paired s' ∧ seq = parse s' := by
  rcases sequence_parse h hseq with rfl | ⟨s', hs', rfl⟩
  · exact ⟨s, h, rfl⟩
  · exact ⟨s', hs'.paired, rfl⟩

end Enclosed

section Backslash

/-- A lexeme read from symbols up to a lone backslash is that backslash. -/
theorem Lexeme.Reads.piece_of_getLast? {x : Lexeme} (h : x.Reads s)
    (hlast : s.getLast? = some (.plain '\\')) : x.piece = .atom (.literal '\\') .one := by
  cases h with
  | group body q =>
    -- the last symbol is the sign of the quantifier, or the parenthesis before it
    rw [List.getLast?_append_of_ne_nil _ (List.cons_ne_nil _ _)] at hlast
    cases q <;> cases hlast
  | @atom x w hx q =>
    cases q with
    | plus => simp [Quantifier.sign] at hlast
    | optional => simp [Quantifier.sign] at hlast
    | one =>
      have hw : w.getLast? = some (.plain '\\') := by simpa [Quantifier.sign] using hlast
      cases hx with
      | literal c =>
        cases hw
        rfl
      | set hclose =>
        rw [List.getLast?_concat] at hw
        cases hw
      | _ => cases hw
  | backref hc => cases hlast
  | bare c =>
    cases hlast
    rfl

/-- **A lone backslash stands for itself** exactly if the pattern ends in one. -/
theorem backslash_mem_parse (h : Paired s) :
    (∃ q, .atom (.literal '\\') q ∈ parse s) ↔ s.getLast? = some (.plain '\\') := by
  refine ⟨?_, fun hlast => ?_⟩
  · rintro ⟨q, hmem⟩
    obtain ⟨l, a, r, rfl, hpiece⟩ := mem_parse hmem
    obtain ⟨rfl, -⟩ := literal_of_piece hpiece.symm
    rw [h l r rfl, List.getLast?_concat]
  · induction s using lexeme_induction with
    | nil => cases hlast
    | cons a s ih =>
      obtain ⟨w, hw, heq⟩ := lexeme_reads a s
      rw [parse_cons]
      generalize (lexeme a s).1 = x at hw ⊢
      generalize (lexeme a s).2 = rest at heq ih ⊢
      rw [heq] at h hlast
      by_cases hrest : rest = []
      · rw [hrest, List.append_nil] at hlast
        exact ⟨.one, List.mem_cons.2 (.inl (hw.piece_of_getLast? hlast).symm)⟩
      · rw [List.getLast?_append_of_ne_nil _ hrest] at hlast
        obtain ⟨q, hmem⟩ := ih h.tail hlast
        exact ⟨q, List.mem_cons_of_mem _ hmem⟩

/-- Nothing is read after a lone backslash. -/
theorem backslash_not_mem_dropLast (h : Paired s) (q : Quantifier) :
    .atom (.literal '\\') q ∉ (parse s).dropLast := by
  induction s using lexeme_induction with
  | nil =>
    rw [parse_nil]
    exact List.not_mem_nil
  | cons a s ih =>
    obtain ⟨w, -, heq⟩ := lexeme_reads a s
    have hweight := weight_lexeme_le a s
    rw [parse_cons]
    by_cases hrest : parse (lexeme a s).2 = []
    · rw [hrest]
      exact List.not_mem_nil
    · rw [List.dropLast_cons_of_ne_nil hrest, List.mem_cons, not_or]
      refine ⟨fun hpiece => hrest ?_, ih ?_⟩
      · obtain ⟨rfl, -⟩ := literal_of_piece hpiece.symm
        have hs : s.length = 0 := congrArg List.length (h [] s rfl)
        have hnil : (lexeme (.plain '\\') s).2.length = 0 := by omega
        rw [List.length_eq_zero_iff.1 hnil, parse_nil]
      · rw [heq] at h
        exact h.tail

/-- The number of backslashes at the end. -/
def trailingBackslashes (cs : List Char) : Nat :=
  (cs.rtakeWhile (· == '\\')).length

theorem trailingBackslashes_le (cs : List Char) : trailingBackslashes cs ≤ cs.length :=
  (List.rtakeWhile_suffix _ _).length_le

theorem trailingBackslashes_cons (c : Char) (cs : List Char) :
    trailingBackslashes (c :: cs) = trailingBackslashes cs +
      if trailingBackslashes cs = cs.length ∧ c = '\\' then 1 else 0 := by
  unfold trailingBackslashes List.rtakeWhile
  rw [List.reverse_cons, List.takeWhile_append]
  simp only [List.length_reverse]
  by_cases hall : (cs.reverse.takeWhile (· == '\\')).length = cs.length
  · by_cases hc : c = '\\' <;> simp [hall, hc]
  · simp [hall]

/-- An escaped character and its backslash do not change the parity. -/
theorem trailingBackslashes_escaped (c : Char) (cs : List Char) :
    Odd (trailingBackslashes ('\\' :: c :: cs)) ↔ Odd (trailingBackslashes cs) := by
  by_cases hall : trailingBackslashes cs = cs.length ∧ c = '\\'
  · obtain ⟨hlen, rfl⟩ := hall
    have hone : trailingBackslashes ('\\' :: cs) = cs.length + 1 := by
      rw [trailingBackslashes_cons, if_pos ⟨hlen, rfl⟩, hlen]
    have htwo : trailingBackslashes ('\\' :: '\\' :: cs) = cs.length + 1 + 1 := by
      rw [trailingBackslashes_cons, if_pos ⟨hone, rfl⟩, hone]
    rw [htwo, hlen, Nat.odd_iff, Nat.odd_iff]
    omega
  · have hle := trailingBackslashes_le cs
    have hone : trailingBackslashes (c :: cs) = trailingBackslashes cs := by
      rw [trailingBackslashes_cons, if_neg hall, Nat.add_zero]
    have htwo : trailingBackslashes ('\\' :: c :: cs) = trailingBackslashes cs := by
      rw [trailingBackslashes_cons, hone, List.length_cons, if_neg (by omega), Nat.add_zero]
    rw [htwo]

/-- **A pattern ends in a lone backslash** if the number of backslashes at its end is odd. -/
theorem symbols_getLast? (cs : List Char) :
    (symbols cs).getLast? = some (.plain '\\') ↔ Odd (trailingBackslashes cs) := by
  fun_induction symbols cs with
  | case1 c cs ih =>
    rw [trailingBackslashes_escaped, ← ih]
    cases symbols cs with
    | nil => simp
    | cons a s => rw [List.getLast?_cons_cons]
  | case2 c cs hpair ih =>
    cases cs with
    | nil =>
      rw [trailingBackslashes_cons]
      by_cases hc : c = '\\' <;> simp [symbols, trailingBackslashes, hc]
    | cons d ds =>
      have hc : c ≠ '\\' := fun hc => hpair d ds hc rfl
      have hne : symbols (d :: ds) ≠ [] := by
        unfold symbols
        split <;> simp_all
      rw [trailingBackslashes_cons, if_neg fun h => hc h.2, Nat.add_zero, ← ih,
        ← List.singleton_append, List.getLast?_append_of_ne_nil _ hne]
  | case3 => decide

end Backslash

section Numbered

open Piece

/-- A piece apart from the number and the inside of a group. -/
def Piece.outline : Piece → Piece
  | .group _ _ q => .group none [] q
  | piece => piece

theorem outline_eq_iff {piece' : Piece} (h : GroupFree [piece]) :
    piece'.outline = piece ↔ piece' = piece := by
  cases piece with
  | atom x q => cases piece' <;> simp [Piece.outline]
  | backref n q => cases piece' <;> simp [Piece.outline]
  | group number alts q => exact absurd h not_groupFree_group

/-- **Numbering keeps the outline** of each piece. -/
theorem outline_numberPieces (k : Nat) (pieces : List Piece) :
    (numberPieces k pieces).1.map outline = pieces.map outline := by
  induction pieces generalizing k with
  | nil => rfl
  | cons piece rest ih =>
    unfold numberPieces
    rw [List.map_cons, List.map_cons, ih]
    cases piece <;> rfl

theorem mem_map_outline (h : GroupFree [piece]) : piece ∈ pieces.map outline ↔ piece ∈ pieces := by
  simp [outline_eq_iff h]

/-- So an atom or a back-reference stands where it stood before. -/
theorem mem_numberPieces_iff (h : GroupFree [piece]) :
    piece ∈ (numberPieces k pieces).1 ↔ piece ∈ pieces := by
  rw [← mem_map_outline h, outline_numberPieces, mem_map_outline h]

theorem mem_dropLast_numberPieces_iff (h : GroupFree [piece]) :
    piece ∈ (numberPieces k pieces).1.dropLast ↔ piece ∈ pieces.dropLast := by
  rw [← mem_map_outline h, List.map_dropLast, outline_numberPieces, ← List.map_dropLast,
    mem_map_outline h]

theorem isSign_outline : piece.outline.IsSign ↔ piece.IsSign := by
  cases piece with
  | atom x q => rfl
  | backref n q => rfl
  | group number alts q => simp [Piece.outline, Piece.IsSign]

theorem takesNoSign_outline : piece.outline.TakesNoSign ↔ piece.TakesNoSign := by
  cases piece with
  | atom x q => rfl
  | backref n q => rfl
  | group number alts q =>
    refine ⟨fun h => ?_, fun h => ?_⟩
    · cases h with
      | quantified h => exact .quantified h
    · cases h with
      | quantified h => exact .quantified h

theorem isChain_numberPieces (h : pieces.IsChain fun a b => b.IsSign → a.TakesNoSign) (k : Nat) :
    (numberPieces k pieces).1.IsChain fun a b => b.IsSign → a.TakesNoSign := by
  have hmap : ∀ pieces : List Piece, (pieces.map outline).IsChain
      (fun a b => b.IsSign → a.TakesNoSign) ↔
        pieces.IsChain fun a b => b.IsSign → a.TakesNoSign := by
    intro pieces
    rw [List.isChain_map]
    simp only [isSign_outline, takesNoSign_outline]
  rw [← hmap, outline_numberPieces, hmap]
  exact h

/-- Every sequence of numbered pieces is read from some symbols and then numbered. -/
theorem exists_of_sequence (h : Paired s) (hseq : Sequence (numberPieces taken (parse s)).1 seq) :
    ∃ s' k, Paired s' ∧ seq = (numberPieces k (parse s')).1 := by
  obtain ⟨seq₀, k, hseq₀, rfl⟩ := sequence_numberPieces hseq
  obtain ⟨s', hs', rfl⟩ := exists_of_sequence_parse h hseq₀
  exact ⟨s', k, hs', rfl⟩

theorem exists_of_occurs (h : Paired s) (hpiece : GroupFree [piece])
    (hocc : Occurs piece (numberPieces taken (parse s)).1) :
    ∃ s', Paired s' ∧ piece ∈ parse s' := by
  obtain ⟨seq, hseq, hmem⟩ := hocc
  obtain ⟨s', k, hs', rfl⟩ := exists_of_sequence h hseq
  exact ⟨s', hs', (mem_numberPieces_iff hpiece).1 hmem⟩

/-- **The alternatives of a group at any depth** are read from enclosed symbols and then
numbered. -/
theorem alternatives_of_occurs (h : Paired s)
    (hocc : Occurs (.group number alts q) (numberPieces taken (parse s)).1) :
    alts ≠ [] ∧ ∀ part ∈ alts, ∃ s' k, Enclosed s' ∧ part = (numberPieces k (parse s')).1 := by
  obtain ⟨seq, hseq, hmem⟩ := hocc
  obtain ⟨s', k, hs', rfl⟩ := exists_of_sequence h hseq
  obtain ⟨number₀, alts₀, k', hmem₀, -, rfl⟩ := group_mem_numberPieces hmem
  obtain ⟨hne, hparts⟩ := group_mem_parse hs' hmem₀
  refine ⟨?_, ?_⟩
  · cases alts₀ with
    | nil => exact absurd rfl hne
    | cons part₀ alts₀ =>
      rw [numberAlternatives_cons]
      exact List.cons_ne_nil _ _
  · intro part hpart
    obtain ⟨part₀, hpart₀, k'', rfl⟩ := mem_numberAlternatives hpart
    obtain ⟨s'', hs'', rfl⟩ := hparts part₀ hpart₀
    exact ⟨s'', k'', hs'', rfl⟩

end Numbered

/-- The shape of a program, at every depth. -/
structure Shape (pieces : List Piece) : Prop where
  backref : ∀ n q, Occurs (.backref n q) pieces → 1 ≤ n ∧ n ≤ 9 ∧ q = .one
  /-- What stands for itself because nothing closes it or follows it takes no quantifier. -/
  bare : ∀ c q, Occurs (.atom (.literal c) q) pieces → c = '(' ∨ c = '[' ∨ c = '\\' → q = .one
  dot : ∀ q, ¬ Occurs (.atom (.literal '.') q) pieces
  members : ∀ chars q, Occurs (.atom (.set chars) q) pieces → chars.members.Pairwise (· < ·)
  group : ∀ number alts q, Occurs (.group number alts q) pieces →
    (∃ g, number = some g) ∧ alts ≠ []
  /-- A sign stands for itself in front, or after a piece that does not take it. -/
  sign : ∀ seq, Sequence pieces seq → seq.IsChain fun a b => b.IsSign → a.TakesNoSign
  /-- A parenthesis that is never closed and a lone backslash stand in no group. -/
  enclosed : ∀ number alts q, Occurs (.group number alts q) pieces → ∀ part ∈ alts,
    ∀ c r, c = '(' ∨ c = '\\' → .atom (.literal c) r ∉ part
  /-- Nothing follows a lone backslash. -/
  last : ∀ q, .atom (.literal '\\') q ∉ pieces.dropLast

theorem shape_numberPieces (h : Paired s) (taken : Nat) :
    Shape (Piece.numberPieces taken (parse s)).1 where
  backref n q hocc := by
    obtain ⟨s', -, hmem⟩ := exists_of_occurs h (by simp) hocc
    exact backref_mem_parse hmem
  bare c q hocc := by
    obtain ⟨s', hs', hmem⟩ := exists_of_occurs h (by simp) hocc
    exact (literal_mem_parse hs' hmem).2
  dot q hocc := by
    obtain ⟨s', hs', hmem⟩ := exists_of_occurs h (by simp) hocc
    exact (literal_mem_parse hs' hmem).1 rfl
  members chars q _ := chars.members_pairwise
  group number alts q hocc := ⟨occurs_numbered hocc, (alternatives_of_occurs h hocc).1⟩
  sign seq hseq := by
    obtain ⟨s', k, -, rfl⟩ := exists_of_sequence h hseq
    exact isChain_numberPieces (isChain_parse s') k
  enclosed number alts q hocc part hpart c r hc hmem := by
    obtain ⟨s', k, hs', rfl⟩ := (alternatives_of_occurs h hocc).2 part hpart
    have hmem' : .atom (.literal c) r ∈ parse s' := (mem_numberPieces_iff (by simp)).1 hmem
    exact hs'.not_mem_parse hc r hmem'
  last q hmem := by
    have hmem' : .atom (.literal '\\') q ∈ (parse s).dropLast :=
      (mem_dropLast_numberPieces_iff (by simp)).1 hmem
    exact backslash_not_mem_dropLast h q hmem'

/-- **The shape of a program.** Every pattern, however malformed, and whatever numbers are taken,
makes a program of this shape; and it ends in a backslash that stands for itself exactly if the
pattern ends in an odd number of them. -/
theorem compile_shape (pattern : List Char) (taken : Nat) :
    Shape (compile pattern taken).pieces ∧
      ((∃ q, .atom (.literal '\\') q ∈ (compile pattern taken).pieces) ↔
        Odd (trailingBackslashes pattern)) := by
  have hpaired := paired_symbols pattern
  have hatom : ∀ q, GroupFree [.atom (.literal '\\') q] := fun q => by simp
  rw [compile_pieces]
  refine ⟨shape_numberPieces hpaired taken, ?_⟩
  simp only [mem_numberPieces_iff (hatom _)]
  rw [backslash_mem_parse hpaired, symbols_getLast?]

/-- What is never closed and what is left at the end stand for themselves, and so does a sign after
a bare parenthesis or in front of an alternative. -/
example : (compile "(+(b|+)\\".toList 0).pieces =
    [.atom (.literal '(') .one, .atom (.literal '+') .one,
      .group (some 1) [[.atom (.literal 'b') .one], [.atom (.literal '+') .one]] .one,
      .atom (.literal '\\') .one] := by
  decide +kernel

end LineSearch
