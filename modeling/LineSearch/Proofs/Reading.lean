import LineSearch.Pattern.Parse

/-!
# What lexemes are read from

Reading takes a pattern apart into lexemes. Each of them is read from the symbols at the front, and
nothing between these and the rest is skipped.

* `Paired`: a backslash that escapes nothing stands at the end only, as `symbols` gives it.
* `Atom.Reads`, `Lexeme.Reads`: the symbols from which an atom or a lexeme is read.
* `Quantifier.TakenFrom`: a quantifier and what is left behind it.
* `lexeme_readsAs`: which lexeme is read, case by case.
* `lexeme_reads`: a lexeme and the rest are what the pattern is made of; `reading_induction`:
  induction along the lexemes and into the groups among them; `lexeme_induction`: along the lexemes
  only.
* `intercalate_splitBars`: the alternatives of a group and the bars between them make up its body.
-/

namespace LineSearch

variable {a : Symbol} {s l r body content rest part : List Symbol} {depth : Nat}

/-- A backslash that escapes nothing stands at the very end, if anywhere. -/
def Paired (s : List Symbol) : Prop :=
  ∀ l r, s = l ++ .plain '\\' :: r → r = []

theorem paired_symbols (cs : List Char) : Paired (symbols cs) := by
  fun_induction symbols cs with
  | case1 c cs ih =>
    rintro (_ | ⟨b, l⟩) r h
    · cases h
    · exact ih l r (List.cons.inj h).2
  | case2 c cs hpair ih =>
    rintro (_ | ⟨b, l⟩) r h
    · -- a plain backslash is followed by nothing
      obtain ⟨hc, rfl⟩ := List.cons.inj h
      cases cs with
      | nil => rfl
      | cons d ds => exact (hpair d ds (Symbol.plain.inj hc) rfl).elim
    · exact ih l r (List.cons.inj h).2
  | case3 =>
    intro l r h
    exact absurd h (by simp)

/-- Before something else no backslash stands alone. -/
theorem Paired.forall_ne (h : Paired (l ++ body ++ a :: r)) : ∀ b ∈ body, b ≠ .plain '\\' := by
  rintro b hb rfl
  obtain ⟨x, y, rfl⟩ := List.append_of_mem hb
  have hnil := h (l ++ x) (y ++ a :: r) (by simp)
  exact absurd hnil (by simp)

theorem Paired.tail (h : Paired (l ++ r)) : Paired r := by
  rintro x y rfl
  exact h (l ++ x) y (by simp)

theorem paired_of_forall_ne (h : ∀ a ∈ s, a ≠ .plain '\\') : Paired s := by
  rintro l r rfl
  exact absurd rfl (h _ (List.mem_append_right _ List.mem_cons_self))

/-- Symbols without a lone backslash are read back from their text. -/
theorem symbols_text (h : ∀ a ∈ s, a ≠ .plain '\\') : symbols (s.flatMap Symbol.text) = s := by
  induction s with
  | nil => rfl
  | cons a s ih =>
    have hs := ih fun b hb => h b (List.mem_cons_of_mem _ hb)
    have ha := h a List.mem_cons_self
    cases a with
    | escaped c =>
      rw [List.flatMap_cons, Symbol.text, List.cons_append, List.cons_append, symbols]
      exact congrArg _ hs
    | plain c =>
      rw [List.flatMap_cons, Symbol.text, List.cons_append, symbols]
      · exact congrArg _ hs
      · rintro d ds rfl
        exact absurd rfl ha

/-- The sign of a quantifier. -/
def Quantifier.sign : Quantifier → List Char
  | one => []
  | plus => ['+']
  | optional => ['?']

/-- The letter that stands for a named class after a backslash. -/
def NamedClass.letter : NamedClass → Char
  | space => 's'
  | digit => 'd'
  | word => 'w'

/-- An atom is read from some symbols. -/
inductive Atom.Reads : Atom → List Symbol → Prop
  | literal (c : Char) : Reads (.literal c) [.plain c]
  | escaped (c : Char) : Reads (.escaped c) [.escaped c]
  | any : Reads .any [.plain '.']
  | named (kind : NamedClass) : Reads (.named kind) [.escaped kind.letter]
  | set {content : List Symbol} (h : .plain ']' ∉ content) :
    Reads (.set (CharSet.ofContent content)) (.plain '[' :: content ++ [.plain ']'])

/-- A lexeme is read from some symbols, its quantifier among them. -/
inductive Lexeme.Reads : Lexeme → List Symbol → Prop
  | group (body : List Symbol) (q : Quantifier) :
    Reads (.group body q) (.plain '(' :: body ++ .plain ')' :: q.sign.map .plain)
  | atom {x : Atom} {w : List Symbol} (hx : x.Reads w) (q : Quantifier) :
    Reads (.atom x q) (w ++ q.sign.map .plain)
  | backref {c : Char} (h : '1' ≤ c ∧ c ≤ '9') :
    Reads (.backref (c.toNat - '0'.toNat)) [.escaped c]
  | bare (c : Char) : Reads (.bare c) [.plain c]

/-- What follows a quantifier, or the lack of one, may not begin with the sign of another. -/
def NoSign (s : List Symbol) : Prop :=
  s.head? ≠ some (.plain '+') ∧ s.head? ≠ some (.plain '?')

/-- A quantifier is taken off the front of some symbols; there is none only where no sign stands. -/
structure Quantifier.TakenFrom (q : Quantifier) (s rest : List Symbol) : Prop where
  front : s = q.sign.map .plain ++ rest
  noSign : q = .one → NoSign rest

theorem quantified_taken (f : Quantifier → Lexeme) (s : List Symbol) :
    ∃ q rest, quantified f s = (f q, rest) ∧ q.TakenFrom s rest := by
  unfold quantified
  split
  · rename_i rest
    exact ⟨.plus, rest, rfl, rfl, fun h => by cases h⟩
  · rename_i rest
    exact ⟨.optional, rest, rfl, rfl, fun h => by cases h⟩
  · rename_i hplus hoptional
    refine ⟨.one, s, rfl, rfl, fun _ => ⟨fun h => ?_, fun h => ?_⟩⟩
    · obtain ⟨rest, rfl⟩ := List.head?_eq_some_iff.1 h
      exact hplus rest rfl
    · obtain ⟨rest, rfl⟩ := List.head?_eq_some_iff.1 h
      exact hoptional rest rfl

/-- The content of a class holds no unescaped `]`. -/
theorem not_mem_of_closeSet (h : closeSet s = some (content, rest)) : .plain ']' ∉ content := by
  fun_induction closeSet s generalizing content with
  | case1 => cases h
  | case2 s =>
    cases h
    exact List.not_mem_nil
  | case3 a s hne ih =>
    obtain ⟨⟨c, r⟩, hc, heq⟩ := Option.map_eq_some_iff.1 h
    cases heq
    rintro hmem
    rcases List.mem_cons.1 hmem with rfl | hmem
    · exact hne rfl
    · exact ih hc hmem

/-- How the front of a pattern is read, case by case: what the symbols have to be like, and what
comes out. -/
inductive ReadsAs : Symbol → List Symbol → Lexeme × List Symbol → Prop
  | backref {c : Char} {s : List Symbol} (h : '1' ≤ c ∧ c ≤ '9') :
    ReadsAs (.escaped c) s (.backref (c.toNat - '0'.toNat), s)
  | escaped {c : Char} {x : Atom} {q : Quantifier} {s rest : List Symbol}
    (hx : x.Reads [.escaped c]) (hq : q.TakenFrom s rest) :
    ReadsAs (.escaped c) s (.atom x q, rest)
  | group {body s after rest : List Symbol} {q : Quantifier}
    (hclose : closeGroup 0 s = some (body, after)) (hq : q.TakenFrom after rest) :
    ReadsAs (.plain '(') s (.group body q, rest)
  | bareGroup {s : List Symbol} (hclose : closeGroup 0 s = none) :
    ReadsAs (.plain '(') s (.bare '(', s)
  | set {content s after rest : List Symbol} {q : Quantifier}
    (hclose : closeSet s = some (content, after)) (hq : q.TakenFrom after rest) :
    ReadsAs (.plain '[') s (.atom (.set (CharSet.ofContent content)) q, rest)
  | bareSet {s : List Symbol} (hclose : closeSet s = none) :
    ReadsAs (.plain '[') s (.bare '[', s)
  | any {q : Quantifier} {s rest : List Symbol} (hq : q.TakenFrom s rest) :
    ReadsAs (.plain '.') s (.atom .any q, rest)
  | literal {c : Char} {q : Quantifier} {s rest : List Symbol} (hgroup : c ≠ '(') (hset : c ≠ '[')
    (hany : c ≠ '.') (hq : q.TakenFrom s rest) :
    ReadsAs (.plain c) s (.atom (.literal c) q, rest)

theorem escape_readsAs (c : Char) (s : List Symbol) : ReadsAs (.escaped c) s (escape c s) := by
  have hatom : ∀ x : Atom, x.Reads [.escaped c] →
      ReadsAs (.escaped c) s (quantified (.atom x) s) := by
    intro x hx
    obtain ⟨q, rest, heq, hq⟩ := quantified_taken (.atom x) s
    rw [heq]
    exact .escaped hx hq
  unfold escape
  split
  · exact .backref ‹_›
  · split
    · rename_i h
      exact hatom _ (h ▸ .named .space)
    · split
      · rename_i h
        exact hatom _ (h ▸ .named .digit)
      · split
        · rename_i h
          exact hatom _ (h ▸ .named .word)
        · exact hatom _ (.escaped c)

theorem lexeme_readsAs (a : Symbol) (s : List Symbol) : ReadsAs a s (lexeme a s) := by
  unfold lexeme
  split
  · exact escape_readsAs _ s
  · split
    · rename_i body after hclose
      obtain ⟨q, rest, heq, hq⟩ := quantified_taken (.group body) after
      rw [heq]
      exact .group hclose hq
    · exact .bareGroup ‹_›
  · split
    · rename_i content after hclose
      obtain ⟨q, rest, heq, hq⟩ := quantified_taken (.atom (.set (CharSet.ofContent content))) after
      rw [heq]
      exact .set hclose hq
    · exact .bareSet ‹_›
  · obtain ⟨q, rest, heq, hq⟩ := quantified_taken (.atom .any) s
    rw [heq]
    exact .any hq
  · rename_i c hgroup hset hany
    obtain ⟨q, rest, heq, hq⟩ := quantified_taken (.atom (.literal c)) s
    rw [heq]
    exact .literal hgroup hset hany hq

/-- **Nothing is lost at the front of a pattern:** it begins with the symbols that its first lexeme
is read from, and the rest follows. -/
theorem lexeme_reads (a : Symbol) (s : List Symbol) :
    ∃ w, (lexeme a s).1.Reads w ∧ a :: s = w ++ (lexeme a s).2 := by
  have hread := lexeme_readsAs a s
  generalize lexeme a s = found at hread ⊢
  cases hread with
  | backref h => exact ⟨_, .backref h, rfl⟩
  | escaped hx hq => exact ⟨_, .atom hx _, by rw [hq.front]; rfl⟩
  | group hclose hq =>
    refine ⟨_, .group _ _, ?_⟩
    rw [append_of_closeGroup hclose, hq.front]
    simp
  | bareGroup hclose => exact ⟨_, .bare '(', rfl⟩
  | set hclose hq =>
    refine ⟨_, .atom (.set (not_mem_of_closeSet hclose)) _, ?_⟩
    rw [append_of_closeSet hclose, hq.front]
    simp
  | bareSet hclose => exact ⟨_, .bare '[', rfl⟩
  | any hq => exact ⟨_, .atom .any _, by rw [hq.front]; rfl⟩
  | literal hgroup hset hany hq => exact ⟨_, .atom (.literal _) _, by rw [hq.front]; rfl⟩

/-- Induction over a pattern as it is read: what holds of the rest, and of the alternatives of a
group that is read first, holds of the whole. -/
theorem reading_induction {motive : List Symbol → Prop} (nil : motive [])
    (cons : ∀ a s, motive (lexeme a s).2 → (∀ body q, (lexeme a s).1 = .group body q →
      ∀ part ∈ alternatives body, motive part) → motive (a :: s)) : ∀ s, motive s
  | [] => nil
  | a :: s =>
    cons a s (reading_induction nil cons (lexeme a s).2) fun _ _ _ part _ =>
      reading_induction nil cons part
termination_by s => s.length
decreasing_by
  all_goals
    have hle := weight_lexeme_le a s
    rw [List.length_cons]
  · omega
  · have hpart := length_le_of_mem_splitBars ‹part ∈ alternatives _›
    have hweight := congrArg Lexeme.weight ‹(lexeme a s).1 = _›
    rw [Lexeme.weight] at hweight
    omega

/-- Induction over a pattern lexeme by lexeme: what holds of the rest holds of the whole. -/
theorem lexeme_induction {motive : List Symbol → Prop} (nil : motive [])
    (cons : ∀ a s, motive (lexeme a s).2 → motive (a :: s)) (s : List Symbol) : motive s :=
  reading_induction nil (fun a s hrest _ => cons a s hrest) s

theorem splitBars_ne_nil (depth : Nat) (s : List Symbol) : splitBars depth s ≠ [] := by
  have hhead : ∀ {parts : List (List Symbol)} {f : List Symbol → List Symbol}, parts ≠ [] →
      parts.modifyHead f ≠ [] := by
    intro parts f h
    cases parts with
    | nil => exact absurd rfl h
    | cons part parts => simp
  fun_induction splitBars depth s with
  | case1 => simp
  | case2 depth s ih => exact hhead ih
  | case3 depth s ih => exact hhead ih
  | case4 s ih => simp
  | case5 s depth ih => exact hhead ih
  | case6 depth a s _ _ _ ih => exact hhead ih

theorem intercalate_modifyHead {α : Type} (sep : List α) (a : α) {parts : List (List α)}
    (h : parts ≠ []) :
    sep.intercalate (parts.modifyHead (a :: ·)) = a :: sep.intercalate parts := by
  cases parts with
  | nil => exact absurd rfl h
  | cons part parts =>
    cases parts with
    | nil => simp
    | cons part' parts => simp

/-- **Nothing is lost in a group:** its alternatives with bars between them are its body. -/
theorem intercalate_splitBars (depth : Nat) (s : List Symbol) :
    [Symbol.plain '|'].intercalate (splitBars depth s) = s := by
  fun_induction splitBars depth s with
  | case1 => rfl
  | case2 depth s ih => rw [intercalate_modifyHead _ _ (splitBars_ne_nil _ _), ih]
  | case3 depth s ih => rw [intercalate_modifyHead _ _ (splitBars_ne_nil _ _), ih]
  | case4 s ih =>
    obtain ⟨part, parts, hparts⟩ := List.exists_cons_of_ne_nil (splitBars_ne_nil 0 s)
    rw [hparts] at ih ⊢
    simp [ih]
  | case5 s depth ih => rw [intercalate_modifyHead _ _ (splitBars_ne_nil _ _), ih]
  | case6 depth a s _ _ _ ih => rw [intercalate_modifyHead _ _ (splitBars_ne_nil _ _), ih]

end LineSearch
