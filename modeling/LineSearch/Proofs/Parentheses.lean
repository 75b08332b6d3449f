import LineSearch.Proofs.Shape

/-!
# Parentheses and a stack

Reading a pattern looks for the partner of each parenthesis in what follows it, again and again in
the inside of groups. The partners are those that one pass over the pattern finds with a stack.

* `Parens`: the parentheses read so far; `Parens.read`: one pass over a text.
* `Parens.read_eq`: the pass goes symbol by symbol.
* `Parens.opened_balanced`, `Parens.opened_append`: balanced symbols leave the stack as it was, and
  a parenthesis that is never closed stays below all others.
* `numberPieces_parens`: each parenthesis that opens is a group or stands for itself outside of all
  groups.
* `StandsAt`: where a character that stands for itself has its place in the text of some pieces.
* `opened_parse`: the stack holds the places of the parentheses that stand for themselves.
* `compile_parens`: groups are the pairs, and what is left on the stack stands for itself.
-/

namespace LineSearch

variable {a : Symbol} {s l r w body rest : List Symbol} {bars : Bool} {i n k taken : Nat} {c : Char}
  {q : Quantifier} {piece : Piece} {pieces : List Piece}

/-- The parentheses that a pass has read. -/
structure Parens where
  /-- Where those stand that are open, the last one first. -/
  opened : List Nat
  /-- Where the two of each pair stand. -/
  pairs : List (Nat × Nat)
  deriving DecidableEq, Repr

namespace Parens

variable {parens inner : Parens}

/-- No parenthesis has been read. -/
def none : Parens :=
  ⟨[], []⟩

/-- A parenthesis that opens goes on the stack. -/
def opens (parens : Parens) (i : Nat) : Parens :=
  { parens with opened := i :: parens.opened }

/-- A parenthesis that closes takes its partner off the stack. Without one it is ignored. -/
def closes (parens : Parens) (i : Nat) : Parens :=
  match parens.opened with
  | [] => parens
  | j :: opened => ⟨opened, (j, i) :: parens.pairs⟩

/-- Reads a text that stands at offset `i` once from left to right. A backslash escapes the
character after it. -/
def read (parens : Parens) (i : Nat) : List Char → Parens
  | '\\' :: _ :: cs => read parens (i + 2) cs
  | '(' :: cs => read (parens.opens i) (i + 1) cs
  | ')' :: cs => read (parens.closes i) (i + 1) cs
  | _ :: cs => read parens (i + 1) cs
  | [] => parens

/-- Reads symbols in the same way. -/
def readSymbols (parens : Parens) (i : Nat) : List Symbol → Parens
  | .plain '(' :: s => readSymbols (parens.opens i) (i + 1) s
  | .plain ')' :: s => readSymbols (parens.closes i) (i + 1) s
  | a :: s => readSymbols parens (i + a.text.length) s
  | [] => parens

theorem readSymbols_cons (hopen : a ≠ .plain '(') (hclose : a ≠ .plain ')') :
    parens.readSymbols i (a :: s) = parens.readSymbols (i + a.text.length) s := by
  rw [readSymbols]
  · exact fun h => hopen h
  · exact fun h => hclose h

/-- **The pass goes symbol by symbol.** -/
theorem read_eq (parens : Parens) (i : Nat) (cs : List Char) :
    parens.read i cs = parens.readSymbols i (symbols cs) := by
  fun_induction symbols cs generalizing parens i with
  | case1 c cs ih =>
    rw [read, readSymbols_cons (by simp) (by simp)]
    exact ih parens (i + 2)
  | case2 c cs hpair ih =>
    by_cases hopen : c = '('
    · subst hopen
      exact ih (parens.opens i) (i + 1)
    · by_cases hclose : c = ')'
      · subst hclose
        exact ih (parens.closes i) (i + 1)
      · rw [read, readSymbols_cons (by simp [hopen]) (by simp [hclose])]
        · exact ih parens (i + 1)
        · intro d ds hc hcs
          exact hpair d ds hc hcs
        · exact hopen
        · exact hclose
  | case3 => rfl

theorem readSymbols_append (parens : Parens) (i : Nat) (l r : List Symbol) :
    parens.readSymbols i (l ++ r) =
      (parens.readSymbols i l).readSymbols (i + (l.flatMap Symbol.text).length) r := by
  induction l generalizing parens i with
  | nil => rfl
  | cons a l ih =>
    have hoffset : i + ((a :: l).flatMap Symbol.text).length =
        i + a.text.length + (l.flatMap Symbol.text).length := by
      rw [List.flatMap_cons, List.length_append, Nat.add_assoc]
    rw [hoffset, List.cons_append]
    by_cases hopen : a = .plain '('
    · subst hopen
      exact ih (parens.opens i) (i + 1)
    · by_cases hclose : a = .plain ')'
      · subst hclose
        exact ih (parens.closes i) (i + 1)
      · rw [readSymbols_cons hopen hclose, readSymbols_cons hopen hclose]
        exact ih parens (i + a.text.length)

/-- **Balanced symbols leave the stack as it was.** -/
theorem opened_balanced (h : Balanced bars s) (parens : Parens) (i : Nat) :
    (parens.readSymbols i s).opened = parens.opened := by
  induction h generalizing parens i with
  | nil => rfl
  | symbol hopen hclose _ _ ih =>
    rw [readSymbols_cons hopen hclose]
    exact ih parens _
  | group _ _ ihbody ih =>
    -- after the body the parenthesis before it is on top of the stack
    rw [List.cons_append, readSymbols, readSymbols_append, readSymbols, ih]
    unfold closes
    rw [ihbody]
    rfl

/-- **A parenthesis that is never closed** stays on the stack below all that come after it. -/
theorem opened_append (inner parens : Parens) {outer : List Nat}
    (h : closeGroup inner.opened.length s = Option.none)
    (houter : parens.opened = inner.opened ++ outer) (i : Nat) :
    (parens.readSymbols i s).opened = (inner.readSymbols i s).opened ++ outer := by
  induction s generalizing parens inner i with
  | nil => exact houter
  | cons a s ih =>
    by_cases hopen : a = .plain '('
    · subst hopen
      rw [closeGroup, Option.map_eq_none_iff] at h
      rw [readSymbols, readSymbols]
      refine ih (inner.opens i) (parens.opens i) h ?_ (i + 1)
      unfold opens
      rw [houter, List.cons_append]
    · by_cases hclose : a = .plain ')'
      · subst hclose
        cases hinner : inner.opened with
        | nil =>
          rw [hinner] at h
          cases h
        | cons j opened =>
          rw [hinner, List.length_cons, closeGroup, Option.map_eq_none_iff] at h
          rw [hinner, List.cons_append] at houter
          rw [readSymbols, readSymbols]
          unfold closes
          rw [hinner, houter]
          exact ih ⟨opened, _⟩ ⟨opened ++ outer, _⟩ h rfl (i + 1)
      · rw [closeGroup_cons hopen hclose, Option.map_eq_none_iff] at h
        rw [readSymbols_cons hopen hclose, readSymbols_cons hopen hclose]
        exact ih inner parens h houter _

/-- Each parenthesis that opens is one of a pair or left on the stack. -/
theorem length_pairs (parens : Parens) (i : Nat) (s : List Symbol) :
    (parens.readSymbols i s).pairs.length + (parens.readSymbols i s).opened.length =
      parens.pairs.length + parens.opened.length + s.count (.plain '(') := by
  induction s generalizing parens i with
  | nil => rfl
  | cons a s ih =>
    by_cases hopen : a = .plain '('
    · subst hopen
      rw [readSymbols, ih, List.count_cons_self]
      unfold opens
      simp only [List.length_cons]
      omega
    · rw [List.count_cons_of_ne hopen]
      by_cases hclose : a = .plain ')'
      · subst hclose
        rw [readSymbols, ih]
        unfold closes
        split
        · rfl
        · rename_i hopened
          rw [hopened]
          simp only [List.length_cons]
          omega
      · rw [readSymbols_cons hopen hclose, ih]

end Parens

section Groups

open Piece

/-- The piece is a character that stands for itself. -/
def Piece.isLiteral (c : Char) : Piece → Bool
  | .atom (.literal d) _ => d == c
  | _ => false

theorem isLiteral_iff : piece.isLiteral c = true ↔ ∃ q, piece = .atom (.literal c) q := by
  cases piece with
  | atom x q => cases x <;> simp [Piece.isLiteral]
  | backref n q => simp [Piece.isLiteral]
  | group number alternatives q => simp [Piece.isLiteral]

theorem isLiteral_number (c : Char) (k : Nat) (piece : Piece) :
    (piece.number k).1.isLiteral c = piece.isLiteral c := by
  cases piece <;> rfl

theorem count_sign (q : Quantifier) : (q.sign.map Symbol.plain).count (.plain '(') = 0 := by
  cases q <;> rfl

theorem count_intercalate {α : Type} [DecidableEq α] {x sep : α} (h : sep ≠ x)
    (parts : List (List α)) :
    ([sep].intercalate parts).count x = (parts.map (List.count x)).sum := by
  induction parts with
  | nil => rfl
  | cons part parts ih =>
    cases parts with
    | nil => simp
    | cons part' parts =>
      rw [List.intercalate_cons_cons, List.count_append, List.count_append, ih,
        List.count_singleton, List.map_cons, List.sum_cons]
      simp [h]

/-- Alternatives take one number after another. -/
theorem numberAlternatives_last {α : Type} {f : α → List Piece} {size : α → Nat} {parts : List α}
    (h : ∀ part ∈ parts, ∀ taken, (numberPieces taken (f part)).2 = taken + size part)
    (taken : Nat) :
    (numberAlternatives taken (parts.map f)).2 = taken + (parts.map size).sum := by
  induction parts generalizing taken with
  | nil => rfl
  | cons part parts ih =>
    have hparts := ih fun b hb => h b (List.mem_cons_of_mem _ hb)
    rw [List.map_cons, numberAlternatives_cons]
    simp only [hparts, h part List.mem_cons_self, List.map_cons, List.sum_cons, Nat.add_assoc]

theorem countP_of_groupsClosed (h : GroupsClosed s) :
    (parse s).countP (·.isLiteral '(') = 0 := by
  rw [List.countP_eq_zero]
  intro piece hmem hliteral
  obtain ⟨q, rfl⟩ := isLiteral_iff.1 hliteral
  exact h.not_mem_parse q hmem

/-- The parentheses that open in what a lexeme is read from, if this is no class. -/
def Lexeme.parens : Lexeme → Nat
  | group body _ => body.count (.plain '(') + 1
  | x => if x.piece.isLiteral '(' then 1 else 0

theorem Quantifier.TakenFrom.count (h : q.TakenFrom s rest) :
    s.count (.plain '(') = rest.count (.plain '(') := by
  rw [h.front, List.count_append, count_sign, Nat.zero_add]

theorem count_lexeme (hset : .plain '[' ∉ a :: s) :
    (a :: s).count (.plain '(') =
      (lexeme a s).1.parens + (lexeme a s).2.count (.plain '(') := by
  have ha : a ≠ .plain '[' := fun ha => hset (ha ▸ List.mem_cons_self)
  have hread := lexeme_readsAs a s
  generalize lexeme a s = found at hread ⊢
  unfold Lexeme.parens
  cases hread with
  | backref hdigit =>
    rw [List.count_cons_of_ne (by simp)]
    exact (Nat.zero_add _).symm
  | escaped hx hq =>
    rw [List.count_cons_of_ne (by simp), hq.count]
    cases hx <;> exact (Nat.zero_add _).symm
  | group hclose hq =>
    rw [append_of_closeGroup hclose, List.count_cons_self, List.count_append,
      List.count_cons_of_ne (by simp), hq.count]
    exact Nat.add_right_comm _ _ 1
  | bareGroup hclose =>
    rw [List.count_cons_self]
    exact Nat.add_comm _ 1
  | set hclose hq => exact absurd rfl ha
  | bareSet hclose => exact absurd rfl ha
  | any hq =>
    rw [List.count_cons_of_ne (by simp), hq.count]
    exact (Nat.zero_add _).symm
  | literal hgroup hset hany hq =>
    rw [List.count_cons_of_ne (by simpa using hgroup), hq.count]
    simp [Lexeme.piece, Piece.isLiteral, hgroup]

/-- The alternatives of a group take a number for each parenthesis that opens in its body, if each
of them does so for its own. -/
theorem numberAlternatives_parens {after : List Symbol}
    (hclose : closeGroup 0 s = some (body, after))
    (h : ∀ part ∈ alternatives body, ∀ taken,
      (numberPieces taken (parse part)).2 + (parse part).countP (·.isLiteral '(') =
        taken + part.count (.plain '(')) (taken : Nat) :
    (numberAlternatives taken ((alternatives body).map parse)).2 =
      taken + body.count (.plain '(') := by
  have hparts : ∀ part ∈ alternatives body, ∀ taken,
      (numberPieces taken (parse part)).2 = taken + part.count (.plain '(') := by
    intro part hpart taken
    have hbalanced := balanced_of_mem_splitBars (balanced_of_closeGroup hclose) hpart
    have hcount := h part hpart taken
    rw [countP_of_groupsClosed hbalanced.groupsClosed] at hcount
    exact hcount
  have hbars : Symbol.plain '|' ≠ .plain '(' := by decide
  have hjoin := congrArg (List.count (.plain '(')) (intercalate_splitBars 0 body)
  rw [count_intercalate hbars] at hjoin
  rw [numberAlternatives_last hparts, ← hjoin]
  rfl

/-- **Each parenthesis that opens is the first of a group, or stands for itself** outside of all
groups: so many numbers are taken, if there is no class to hide one. -/
theorem numberPieces_parens (hset : .plain '[' ∉ s) (taken : Nat) :
    (numberPieces taken (parse s)).2 + (parse s).countP (·.isLiteral '(') =
      taken + s.count (.plain '(') := by
  induction s using reading_induction generalizing taken with
  | nil =>
    rw [parse_nil]
    rfl
  | cons a s ih iha =>
    have hcount := count_lexeme hset
    have hread := lexeme_readsAs a s
    obtain ⟨w, -, heq⟩ := lexeme_reads a s
    have hafter := ih fun hmem => hset (by rw [heq]; exact List.mem_append_right w hmem)
    rw [parse_cons, numberPieces_cons, List.countP_cons, hcount]
    generalize lexeme a s = found at hread hafter iha ⊢
    obtain ⟨x, rest⟩ := found
    simp only at hafter iha ⊢
    -- what is no group takes no number
    have hleaf (hnumber : (x.piece.number taken).2 = taken)
        (hparens : x.parens = if x.piece.isLiteral '(' then 1 else 0) :
        (numberPieces (x.piece.number taken).2 (parse rest)).2 +
            ((parse rest).countP (·.isLiteral '(') + if x.piece.isLiteral '(' then 1 else 0) =
          taken + (x.parens + rest.count (.plain '(')) := by
      rw [hnumber, hparens, ← Nat.add_assoc, hafter taken]
      omega
    cases x with
    | atom x q => exact hleaf rfl rfl
    | backref n => exact hleaf rfl rfl
    | bare c => exact hleaf rfl rfl
    | group body q =>
      cases hread with
      | group hclose hq =>
        have hinside : ∀ part ∈ alternatives body, ∀ taken,
            (numberPieces taken (parse part)).2 + (parse part).countP (·.isLiteral '(') =
              taken + part.count (.plain '(') := by
          intro part hpart
          refine iha body q rfl part hpart fun hmem => hset ?_
          rw [append_of_closeGroup hclose]
          exact List.mem_cons_of_mem _
            (List.mem_append_left _ (mem_of_mem_alternatives hpart hmem))
        have hlast := numberAlternatives_parens hclose hinside (taken + 1)
        show (numberPieces (numberAlternatives (taken + 1) ((alternatives body).map parse)).2
            (parse rest)).2 + (parse rest).countP (·.isLiteral '(') =
          taken + (body.count (.plain '(') + 1 + rest.count (.plain '('))
        rw [hlast, hafter _]
        omega

theorem countP_numberPieces (c : Char) (taken : Nat) (pieces : List Piece) :
    (numberPieces taken pieces).1.countP (·.isLiteral c) = pieces.countP (·.isLiteral c) := by
  induction pieces generalizing taken with
  | nil => rfl
  | cons piece pieces ih =>
    rw [numberPieces_cons, List.countP_cons, List.countP_cons, ih, isLiteral_number]

end Groups

section Places

variable {u v : List Char} {chars : CharSet}

/-- A character stands for itself among some pieces, after pieces with a text of length `n`. -/
def StandsAt (c : Char) (pieces : List Piece) (n : Nat) : Prop :=
  ∃ before q after w, pieces = before ++ .atom (.literal c) q :: after ∧ Spells before w ∧
    w.length = n

theorem not_standsAt_nil : ¬ StandsAt c [] n := by
  rintro ⟨before, q, after, w, h, -⟩
  exact absurd h (by simp)

/-- The text of some pieces begins with that of the first one. -/
theorem spells_cons : Spells (piece :: pieces) v ↔
    ∃ front back, v = front ++ back ∧ Spells [piece] front ∧ Spells pieces back := by
  constructor
  · intro h
    cases h with
    | atom hx hr => exact ⟨_, _, rfl, by simpa using Spells.atom hx .nil, hr⟩
    | backref hr => exact ⟨_, _, rfl, by simpa using Spells.backref .nil, hr⟩
    | group ha hr => exact ⟨_, _, by simp, Spells.group ha .nil, hr⟩
  · rintro ⟨front, back, rfl, hfront, hback⟩
    cases hfront with
    | atom hx hr =>
      cases hr
      simpa using Spells.atom hx hback
    | backref hr =>
      cases hr
      simpa using Spells.backref hback
    | group ha hr =>
      cases hr
      simpa using Spells.group ha hback

/-- Without classes, the text of the first piece is what comes before the text of the others. -/
theorem spells_head (hfree : ∀ chars q, ¬ Occurs (.atom (.set chars) q) (piece :: pieces))
    (h : Spells (piece :: pieces) (u ++ v)) (hv : Spells pieces v) (x : List Char) :
    Spells [piece] x ↔ x = u := by
  obtain ⟨front, back, heq, hfront, hback⟩ := spells_cons.1 h
  have hrest : ∀ chars q, ¬ Occurs (.atom (.set chars) q) pieces :=
    fun chars q h => hfree chars q h.tail
  have hone : ∀ chars q, ¬ Occurs (.atom (.set chars) q) [piece] := by
    intro chars q h
    rcases occurs_cons.1 h with h | h | h
    · exact hfree chars q (occurs_cons.2 (.inl h))
    · exact hfree chars q (occurs_cons.2 (.inr (.inl h)))
    · exact not_occurs_nil h
  have hu : front = u := by
    rw [hback.unique hrest hv] at heq
    exact (List.append_cancel_right heq).symm
  rw [← hu]
  constructor
  · intro hx
    exact hx.unique hone hfront
  · rintro rfl
    exact hfront

/-- What stands at an offset is the first piece, or stands behind its text. -/
theorem standsAt_cons (h : ∀ x, Spells [piece] x ↔ x = u) :
    StandsAt c (piece :: pieces) n ↔
      (piece.isLiteral c = true ∧ n = 0) ∨ ∃ m, StandsAt c pieces m ∧ n = u.length + m := by
  constructor
  · rintro ⟨before, q, after, w, heq, hw, rfl⟩
    cases before with
    | nil =>
      obtain ⟨rfl, -⟩ := List.cons.inj heq
      cases hw
      exact .inl ⟨isLiteral_iff.2 ⟨q, rfl⟩, rfl⟩
    | cons piece' before =>
      obtain ⟨rfl, hpieces⟩ := List.cons.inj heq
      obtain ⟨front, back, rfl, hfront, hback⟩ := spells_cons.1 hw
      rw [h] at hfront
      rw [hfront, List.length_append]
      exact .inr ⟨back.length, ⟨before, q, after, back, hpieces, hback, rfl⟩, rfl⟩
  · rintro (⟨hliteral, rfl⟩ | ⟨m, ⟨before, q, after, w, rfl, hw, rfl⟩, rfl⟩)
    · obtain ⟨q, rfl⟩ := isLiteral_iff.1 hliteral
      exact ⟨[], q, pieces, [], rfl, .nil, rfl⟩
    · refine ⟨piece :: before, q, after, u ++ w, rfl, ?_, List.length_append⟩
      exact spells_cons.2 ⟨u, w, rfl, (h u).2 rfl, hw⟩

/-- Every sequence of a pattern, at any depth, is read from symbols of the pattern. -/
theorem sequence_parse_subset (h : Sequence (parse s) pieces) :
    ∃ s', s' ⊆ s ∧ pieces = parse s' := by
  induction h with
  | whole => exact ⟨s, List.Subset.refl s, rfl⟩
  | alternative _ hg hp ih =>
    obtain ⟨s', hs', rfl⟩ := ih
    obtain ⟨l, a, r, rfl, hpiece⟩ := mem_parse hg
    obtain ⟨body, rest, hclose, rfl⟩ := group_of_piece hpiece.symm
    obtain ⟨part, hpart, rfl⟩ := List.mem_map.1 hp
    refine ⟨part, ?_, rfl⟩
    intro b hb
    apply hs'
    rw [append_of_closeGroup hclose]
    have hmem := mem_of_mem_alternatives hpart hb
    simp [hmem]

/-- A pattern without an unescaped `[` makes no class. -/
theorem not_occurs_set (hset : .plain '[' ∉ s) (taken : Nat) (chars : CharSet) (q : Quantifier) :
    ¬ Occurs (.atom (.set chars) q) (Piece.numberPieces taken (parse s)).1 := by
  rintro ⟨seq, hseq, hmem⟩
  obtain ⟨seq₀, k, hseq₀, rfl⟩ := sequence_numberPieces hseq
  obtain ⟨s', hs', rfl⟩ := sequence_parse_subset hseq₀
  obtain ⟨l, a, r, rfl, hpiece⟩ := mem_parse ((mem_numberPieces_iff (by simp)).1 hmem)
  have hread := lexeme_readsAs a r
  generalize lexeme a r = found at hpiece hread
  cases hread with
  | set hclose hq => exact hset (hs' (by simp))
  | escaped hx hq =>
    cases hpiece
    cases hx
  | _ => cases hpiece

/-- What a lexeme is read from leaves an empty stack as it was, but for a parenthesis that is never
closed. -/
theorem opened_lexeme (hset : .plain '[' ∉ a :: s) :
    ∃ w, a :: s = w ++ (lexeme a s).2 ∧
      (((lexeme a s).1.piece.isLiteral '(' = true ∧ w = [.plain '('] ∧
          closeGroup 0 (lexeme a s).2 = none) ∨
        ((lexeme a s).1.piece.isLiteral '(' = false ∧ ∀ (parens : Parens) (i : Nat),
          parens.opened = [] → (parens.readSymbols i w).opened = [])) := by
  have hsign : ∀ (q : Quantifier) {l : List Symbol}, Balanced true l →
      ∀ (parens : Parens) (i : Nat), parens.opened = [] →
        (parens.readSymbols i (l ++ q.sign.map .plain)).opened = [] := by
    intro q l hl parens i hempty
    rw [Parens.opened_balanced (hl.append (.of_inert q.sign_inert))]
    exact hempty
  have hread := lexeme_readsAs a s
  generalize lexeme a s = found at hread ⊢
  cases hread with
  | @backref c _ hdigit =>
    have hbalanced : Balanced true [.escaped c] := .single (by simp) (by simp)
    exact ⟨[.escaped c], rfl, .inr ⟨rfl, hsign .one hbalanced⟩⟩
  | @escaped c x q _ rest hx hq =>
    have hbalanced : Balanced true [.escaped c] := .single (by simp) (by simp)
    have hliteral : (Lexeme.atom x q).piece.isLiteral '(' = false := by cases hx <;> rfl
    exact ⟨[.escaped c] ++ q.sign.map .plain, by simp [hq.front],
      .inr ⟨hliteral, hsign q hbalanced⟩⟩
  | @group body _ after rest q hclose hq =>
    have hbalanced : Balanced true (.plain '(' :: body ++ [.plain ')']) :=
      .group (balanced_of_closeGroup hclose) .nil
    exact ⟨.plain '(' :: body ++ [.plain ')'] ++ q.sign.map .plain,
      by simp [append_of_closeGroup hclose, hq.front], .inr ⟨rfl, hsign q hbalanced⟩⟩
  | bareGroup hclose => exact ⟨[.plain '('], rfl, .inl ⟨rfl, rfl, hclose⟩⟩
  | set hclose hq => exact absurd List.mem_cons_self hset
  | bareSet hclose => exact absurd List.mem_cons_self hset
  | @any q _ rest hq =>
    have hbalanced : Balanced true [.plain '.'] := .single (by simp) (by simp)
    exact ⟨[.plain '.'] ++ q.sign.map .plain, by simp [hq.front], .inr ⟨rfl, hsign q hbalanced⟩⟩
  | @literal c q _ rest hgroup hset hany hq =>
    have hliteral : (Lexeme.atom (.literal c) q).piece.isLiteral '(' = false := by
      simpa [Lexeme.piece, Piece.isLiteral] using hgroup
    refine ⟨[.plain c] ++ q.sign.map .plain, by simp [hq.front], .inr ⟨hliteral, ?_⟩⟩
    by_cases hc : c = ')'
    · -- there is no partner for it on an empty stack
      subst hc
      intro parens i hempty
      have hcloses : parens.closes i = parens := by
        unfold Parens.closes
        rw [hempty]
      rw [List.singleton_append, Parens.readSymbols, hcloses]
      exact hsign q .nil parens (i + 1) hempty
    · exact hsign q (.single (by simpa using hgroup) (by simpa using hc))

/-- **The stack holds the places of the parentheses that stand for themselves.** -/
theorem opened_parse (hpair : Paired s) (hset : .plain '[' ∉ s) (parens : Parens)
    (hempty : parens.opened = []) (i taken : Nat) :
    let pieces := (Piece.numberPieces taken (parse s)).1
    let opened := (parens.readSymbols i s).opened
    opened.length = pieces.countP (·.isLiteral '(') ∧
      ∀ n, n ∈ opened ↔ ∃ m, StandsAt '(' pieces m ∧ n = i + m := by
  induction s using lexeme_induction generalizing parens i taken with
  | nil =>
    rw [parse_nil]
    show parens.opened.length = 0 ∧ ∀ n, n ∈ parens.opened ↔ ∃ m, StandsAt '(' [] m ∧ n = i + m
    rw [hempty]
    simp [not_standsAt_nil]
  | cons a s ih =>
    obtain ⟨w, heq, hcase⟩ := opened_lexeme hset
    have hfree := not_occurs_set hset taken
    have hspells := (spells_parse hpair).numberPieces taken
    rw [parse_cons] at hfree hspells ⊢
    simp only [Piece.numberPieces_cons] at hfree hspells ⊢
    rw [heq] at hpair hset hspells ⊢
    rw [List.flatMap_append] at hspells
    have hset' : .plain '[' ∉ (lexeme a s).2 := fun h => hset (List.mem_append_right w h)
    generalize hk : ((lexeme a s).1.piece.number taken).2 = k at hfree hspells ⊢
    have hrest := (spells_parse hpair.tail).numberPieces k
    have hone := spells_head hfree hspells hrest
    simp only [List.countP_cons, isLiteral_number, standsAt_cons hone]
    rcases hcase with ⟨hliteral, rfl, hclose⟩ | ⟨hliteral, hopened⟩
    · -- the parenthesis is never closed, so it stays below all others
      have hbelow := Parens.opened_append .none (parens.opens i) hclose
        (by unfold Parens.opens; rw [hempty]; rfl) (i + 1)
      obtain ⟨hcount, hmem⟩ := ih hpair.tail hset' .none rfl (i + 1) k
      rw [List.singleton_append, Parens.readSymbols, hbelow]
      refine ⟨?_, fun n => ?_⟩
      · rw [List.length_append, hcount, if_pos hliteral, List.length_singleton]
      · rw [List.mem_append, List.mem_singleton, hmem]
        constructor
        · rintro (⟨m, hm, rfl⟩ | rfl)
          · exact ⟨1 + m, .inr ⟨m, hm, rfl⟩, Nat.add_assoc i 1 m⟩
          · exact ⟨0, .inl ⟨hliteral, rfl⟩, rfl⟩
        · rintro ⟨_, ⟨-, rfl⟩ | ⟨m, hm, rfl⟩, rfl⟩
          · exact .inr rfl
          · exact .inl ⟨m, hm, (Nat.add_assoc i 1 m).symm⟩
    · have hempty' := hopened parens i hempty
      obtain ⟨hcount, hmem⟩ := ih hpair.tail hset' _ hempty' (i + (w.flatMap Symbol.text).length) k
      rw [Parens.readSymbols_append, hliteral]
      refine ⟨hcount, fun n => ?_⟩
      rw [hmem]
      constructor
      · rintro ⟨m, hm, rfl⟩
        exact ⟨_, .inr ⟨m, hm, rfl⟩, Nat.add_assoc i _ m⟩
      · rintro ⟨_, ⟨hfalse, -⟩ | ⟨m, hm, rfl⟩, rfl⟩
        · exact absurd hfalse Bool.false_ne_true
        · exact ⟨m, hm, (Nat.add_assoc i _ m).symm⟩

end Places

/-- **Groups are the pairs that a stack finds.** Take a pattern without an unescaped `[`, however its
parentheses, bars and signs are mixed, and read it once with a stack. Whatever numbers are taken, the
program has a group for each pair. The parentheses that are left on the stack are those that stand
for themselves in the program outside of all groups: so many of them, and at the same places of the
pattern. -/
theorem compile_parens (pattern : List Char) (taken : Nat) (hset : .plain '[' ∉ symbols pattern) :
    let parens := Parens.none.read 0 pattern
    let program := compile pattern taken
    program.groupCount = taken + parens.pairs.length ∧
      program.pieces.countP (·.isLiteral '(') = parens.opened.length ∧
      ∀ n, n ∈ parens.opened ↔ StandsAt '(' program.pieces n := by
  intro parens program
  have hparens : parens = Parens.none.readSymbols 0 (symbols pattern) := Parens.read_eq _ _ _
  obtain ⟨hcount, hplaces⟩ := opened_parse (paired_symbols pattern) hset .none rfl 0 taken
  rw [← hparens, ← compile_pieces] at hcount hplaces
  refine ⟨?_, hcount.symm, fun n => ?_⟩
  · have hgroups := numberPieces_parens hset taken
    have hpairs := Parens.length_pairs .none 0 (symbols pattern)
    rw [← countP_numberPieces _ taken, ← compile_pieces, ← hcount] at hgroups
    rw [← hparens] at hpairs
    have hnone : Parens.none.pairs.length + Parens.none.opened.length = 0 := rfl
    show (Piece.numberPieces taken (parse (symbols pattern))).2 = taken + parens.pairs.length
    omega
  · rw [hplaces]
    simp only [Nat.zero_add, exists_eq_right']
    rfl

/-- Nested groups with an escaped parenthesis, and one that is never closed before a last group. -/
theorem compile_parens_mixed :
    let pattern := "((a|\\)(b)?))(+é|()".toList
    .plain '[' ∉ symbols pattern ∧
      Parens.none.read 0 pattern = ⟨[12], [(16, 17), (0, 11), (1, 10), (6, 8)]⟩ ∧
      (compile pattern 2).groupCount = 6 ∧
      (compile pattern 2).pieces.countP (·.isLiteral '(') = 1 ∧
      StandsAt '(' (compile pattern 2).pieces 12 := by
  intro pattern
  have hset : .plain '[' ∉ symbols pattern := by decide +kernel
  have hread : Parens.none.read 0 pattern = ⟨[12], [(16, 17), (0, 11), (1, 10), (6, 8)]⟩ := by
    decide +kernel
  obtain ⟨hcount, hliterals, hplaces⟩ := compile_parens pattern 2 hset
  rw [hread] at hcount hliterals hplaces
  exact ⟨hset, hread, hcount, hliterals, (hplaces 12).1 List.mem_cons_self⟩

end LineSearch
