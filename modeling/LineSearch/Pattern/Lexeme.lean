import LineSearch.Pattern.Piece

/-!
# Lexemes

What stands at the front of a pattern, found by looking ahead for the closing bracket.

* `closeGroup`: the body of a group, up to the `)` that closes it. Only parentheses count.
* `closeSet`: the content of a bracket class, up to the first unescaped `]`.
* `alternatives`: the parts of a group's body between its own `|`.
* `lexeme`: the front of a pattern with its quantifier, and what follows. A bracket that is never
  closed is a bare character.
* `weight_lexeme_le`: the inside of a lexeme and what follows it fit in what it was read from, so
  reading always goes on to something smaller.
-/

namespace LineSearch

variable {depth : Nat} {s body content rest part : List Symbol}

/-- The symbols before and after the `)` that closes a group, with `depth` inner groups open. -/
def closeGroup (depth : Nat) : List Symbol → Option (List Symbol × List Symbol)
  | [] => none
  | .plain '(' :: s => (closeGroup (depth + 1) s).map fun (body, rest) => (.plain '(' :: body, rest)
  | .plain ')' :: s =>
    match depth with
    | 0 => some ([], s)
    | depth + 1 => (closeGroup depth s).map fun (body, rest) => (.plain ')' :: body, rest)
  | a :: s => (closeGroup depth s).map fun (body, rest) => (a :: body, rest)

/-- The symbols before and after the first unescaped `]`. -/
def closeSet : List Symbol → Option (List Symbol × List Symbol)
  | [] => none
  | .plain ']' :: s => some ([], s)
  | a :: s => (closeSet s).map fun (content, rest) => (a :: content, rest)

/-- The parts of a body between the unescaped `|` that stand in none of its inner groups, with
`depth` of these open. There is at least one part; parts may be empty. -/
def splitBars (depth : Nat) : List Symbol → List (List Symbol)
  | [] => [[]]
  | .plain '(' :: s => (splitBars (depth + 1) s).modifyHead (.plain '(' :: ·)
  | .plain ')' :: s => (splitBars (depth - 1) s).modifyHead (.plain ')' :: ·)
  | .plain '|' :: s =>
    match depth with
    | 0 => [] :: splitBars 0 s
    | depth + 1 => (splitBars (depth + 1) s).modifyHead (.plain '|' :: ·)
  | a :: s => (splitBars depth s).modifyHead (a :: ·)

/-- The alternatives of a group with a given body. -/
def alternatives (body : List Symbol) : List (List Symbol) :=
  splitBars 0 body

theorem append_of_closeGroup (h : closeGroup depth s = some (body, rest)) :
    s = body ++ .plain ')' :: rest := by
  fun_induction closeGroup depth s generalizing body with
  | case1 => simp at h
  | case2 depth s ih =>
    obtain ⟨⟨b, r⟩, hb, heq⟩ := Option.map_eq_some_iff.1 h
    obtain ⟨rfl, rfl⟩ := Prod.mk.inj heq
    rw [ih hb, List.cons_append]
  | case3 s =>
    obtain ⟨rfl, rfl⟩ := Prod.mk.inj (Option.some.inj h)
    rfl
  | case4 s depth ih =>
    obtain ⟨⟨b, r⟩, hb, heq⟩ := Option.map_eq_some_iff.1 h
    obtain ⟨rfl, rfl⟩ := Prod.mk.inj heq
    rw [ih hb, List.cons_append]
  | case5 depth a s _ _ ih =>
    obtain ⟨⟨b, r⟩, hb, heq⟩ := Option.map_eq_some_iff.1 h
    obtain ⟨rfl, rfl⟩ := Prod.mk.inj heq
    rw [ih hb, List.cons_append]

theorem append_of_closeSet (h : closeSet s = some (content, rest)) :
    s = content ++ .plain ']' :: rest := by
  fun_induction closeSet s generalizing content with
  | case1 => simp at h
  | case2 s =>
    obtain ⟨rfl, rfl⟩ := Prod.mk.inj (Option.some.inj h)
    rfl
  | case3 a s _ ih =>
    obtain ⟨⟨c, r⟩, hc, heq⟩ := Option.map_eq_some_iff.1 h
    obtain ⟨rfl, rfl⟩ := Prod.mk.inj heq
    rw [ih hc, List.cons_append]

/-- No part is longer than the body. -/
theorem length_le_of_mem_splitBars (h : part ∈ splitBars depth s) : part.length ≤ s.length := by
  have hcons : ∀ {a : Symbol} {parts : List (List Symbol)} {n : Nat},
      (∀ p ∈ parts, p.length ≤ n) → ∀ p ∈ parts.modifyHead (a :: ·), p.length ≤ n + 1 := by
    intro a parts n hle p hp
    cases parts with
    | nil => simp at hp
    | cons q qs =>
      simp only [List.modifyHead_cons, List.mem_cons] at hp
      rcases hp with rfl | hp
      · simpa using hle q (by simp)
      · exact Nat.le_succ_of_le (hle p (by simp [hp]))
  fun_induction splitBars depth s generalizing part with
  | case1 => simp_all
  | case2 depth s ih => exact hcons (fun p hp => ih hp) part h
  | case3 depth s ih => exact hcons (fun p hp => ih hp) part h
  | case4 s ih =>
    simp only [List.mem_cons] at h
    rcases h with rfl | h
    · simp
    · exact Nat.le_succ_of_le (ih h)
  | case5 s depth ih => exact hcons (fun p hp => ih hp) part h
  | case6 depth a s _ _ _ ih => exact hcons (fun p hp => ih hp) part h

/-- What stands at the front of a pattern. -/
inductive Lexeme where
  | group (body : List Symbol) (quantifier : Quantifier)
  | atom (atom : Atom) (quantifier : Quantifier)
  | backref (group : Nat)
  /-- An opening bracket that is never closed. -/
  | bare (c : Char)
  deriving DecidableEq

/-- The symbols inside a lexeme that are still to be read. -/
def Lexeme.weight : Lexeme → Nat
  | group body _ => body.length
  | atom _ _ => 0
  | backref _ => 0
  | bare _ => 0

/-- Takes a quantifier off the front of what follows, if one stands there. -/
def quantified (lexeme : Quantifier → Lexeme) : List Symbol → Lexeme × List Symbol
  | .plain '+' :: rest => (lexeme .plus, rest)
  | .plain '?' :: rest => (lexeme .optional, rest)
  | rest => (lexeme .one, rest)

/-- The lexeme of an escaped character. A back-reference takes no quantifier. -/
def escape (c : Char) (rest : List Symbol) : Lexeme × List Symbol :=
  if '1' ≤ c ∧ c ≤ '9' then (.backref (c.toNat - '0'.toNat), rest)
  else if c = 's' then quantified (.atom (.named .space)) rest
  else if c = 'd' then quantified (.atom (.named .digit)) rest
  else if c = 'w' then quantified (.atom (.named .word)) rest
  else quantified (.atom (.escaped c)) rest

/-- The front of the pattern `a :: rest`, and what follows. A bare bracket takes no quantifier. -/
def lexeme (a : Symbol) (rest : List Symbol) : Lexeme × List Symbol :=
  match a with
  | .escaped c => escape c rest
  | .plain '(' =>
    match closeGroup 0 rest with
    | some (body, rest) => quantified (.group body) rest
    | none => (.bare '(', rest)
  | .plain '[' =>
    match closeSet rest with
    | some (content, rest) => quantified (.atom (.set (CharSet.ofContent content))) rest
    | none => (.bare '[', rest)
  | .plain '.' => quantified (.atom .any) rest
  | .plain c => quantified (.atom (.literal c)) rest

theorem weight_quantified_le {f : Quantifier → Lexeme} {n : Nat} (hf : ∀ q, (f q).weight ≤ n)
    (s : List Symbol) : (quantified f s).1.weight + (quantified f s).2.length ≤ n + s.length := by
  have h1 := hf .plus
  have h2 := hf .optional
  have h3 := hf .one
  unfold quantified
  split <;> simp only [List.length_cons] <;> omega

/-- **Reading gets smaller:** the inside of a lexeme and what follows it fit in what it was
read from. -/
theorem weight_lexeme_le (a : Symbol) (rest : List Symbol) :
    (lexeme a rest).1.weight + (lexeme a rest).2.length ≤ rest.length := by
  have hatom : ∀ {x : Atom} {r : List Symbol},
      (quantified (.atom x) r).1.weight + (quantified (.atom x) r).2.length ≤ r.length := by
    intro x r
    have := weight_quantified_le (f := .atom x) (n := 0) (fun _ => Nat.le_refl _) r
    omega
  unfold lexeme
  split
  · unfold escape
    split
    · simp [Lexeme.weight]
    · split
      · exact hatom
      · split
        · exact hatom
        · split <;> exact hatom
  · split
    · rename_i body r h
      have := weight_quantified_le (f := .group body) (n := body.length) (fun _ => Nat.le_refl _) r
      rw [append_of_closeGroup h]
      simp only [List.length_append, List.length_cons]
      omega
    · simp [Lexeme.weight]
  · split
    · rename_i content r h
      have := hatom (x := .set (CharSet.ofContent content)) (r := r)
      rw [append_of_closeSet h]
      simp only [List.length_append, List.length_cons]
      omega
    · simp [Lexeme.weight]
  · exact hatom
  · exact hatom

end LineSearch
