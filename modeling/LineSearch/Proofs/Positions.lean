import LineSearch.Proofs.Reading

/-!
# Positions in a pattern

Reading a pattern takes it apart from the front, and each part is handed on as a list of its own.
The same can be done by position in a text that is never taken apart: then a position may lie behind
the end, a stretch may end before it begins, and a depth may be counted below zero. Here each of
these operations is checked and can fail.

* `charAt`, `slice`, `minus`: the operations that can fail, each with a `Fault` of its own.
* `SymbolAt`: which symbol stands at a position, and where the next one does; `exists_symbolAt`: it
  is the first one of the symbols from there on.
* `escaped_or_last`, `symbols_drop_eq_cons`: what it is, by the character at the position.
* `scan_induction`: induction along the positions at which a scan stops.
-/

namespace LineSearch

namespace InPlace

/-- What can go wrong with positions and depths. -/
inductive Fault where
  /-- No character stands at the position. -/
  | index
  /-- The stretch ends before it begins, or behind the end of the text. -/
  | slice
  /-- The difference is less than zero. -/
  | negative
  deriving DecidableEq, Repr

/-- The character at position `i`. -/
def charAt (chars : List Char) (i : Nat) : Except Fault Char :=
  match chars[i]? with
  | some c => .ok c
  | none => .error .index

/-- The characters from position `i` up to position `j`, which is left out. -/
def slice (chars : List Char) (i j : Nat) : Except Fault (List Char) :=
  if i ≤ j ∧ j ≤ chars.length then .ok ((chars.take j).drop i) else .error .slice

/-- The difference of two numbers. -/
def minus (m n : Nat) : Except Fault Nat :=
  if n ≤ m then .ok (m - n) else .error .negative

section Positions

variable {chars w r : List Char} {i next : Nat} {c : Char} {a : Symbol} {s : List Symbol}

@[simp] theorem ok_bind {α β : Type} (x : α) (f : α → Except Fault β) :
    (Except.ok x >>= f) = f x := rfl

theorem charAt_eq (h : chars[i]? = some c) : charAt chars i = .ok c := by
  unfold charAt
  rw [h]

/-- A stretch that stands at a position can be cut out there. -/
theorem slice_eq (h : chars.drop i = w ++ r) (hi : i ≤ chars.length) :
    slice chars i (i + w.length) = .ok w := by
  have hlen := congrArg List.length h
  rw [List.length_drop, List.length_append] at hlen
  unfold slice
  rw [if_pos (by omega), List.drop_take, h, Nat.add_sub_cancel_left, List.take_left]

/-- The symbol `a` stands at position `i`, and what comes after it begins at position `next`. A
backslash takes two positions, even if nothing stands at the second one. -/
inductive SymbolAt (chars : List Char) (i : Nat) : Symbol → Nat → Prop
  | escape {a : Symbol} (hback : chars[i]? = some '\\') (ha : (chars.drop i).take 2 = a.text) :
    SymbolAt chars i a (i + 2)
  | plain {c : Char} (hc : chars[i]? = some c) (hne : c ≠ '\\') :
    SymbolAt chars i (.plain c) (i + 1)

/-- The symbols from a position on begin with the one that stands there. -/
theorem exists_symbolAt (h : symbols (chars.drop i) = a :: s) :
    ∃ next, SymbolAt chars i a next ∧ symbols (chars.drop next) = s := by
  have hget : chars[i]? = (chars.drop i)[0]? := (List.getElem?_drop (j := 0)).symm
  have hdrop : ∀ k, chars.drop (i + k) = (chars.drop i).drop k := fun k => List.drop_drop.symm
  generalize hrest : chars.drop i = rest at h hget hdrop
  fun_cases symbols rest with
  | case1 c cs =>
    obtain ⟨rfl, rfl⟩ := List.cons.inj h
    exact ⟨i + 2, .escape hget (by rw [hrest]; rfl), congrArg symbols (hdrop 2)⟩
  | case2 c cs hpair =>
    rw [symbols] at h
    · obtain ⟨rfl, rfl⟩ := List.cons.inj h
      by_cases hc : c = '\\'
      · subst hc
        cases cs with
        | nil => exact ⟨i + 2, .escape hget (by rw [hrest]; rfl), congrArg symbols (hdrop 2)⟩
        | cons d ds => exact (hpair d ds rfl rfl).elim
      · exact ⟨i + 1, .plain hget hc, congrArg symbols (hdrop 1)⟩
    · exact hpair
  | case3 => cases h

/-- There are no symbols at the end of a text and behind it. -/
theorem symbols_drop_eq_nil : symbols (chars.drop i) = [] ↔ chars.length ≤ i := by
  constructor
  · intro h
    have htext := text_symbols (chars.drop i)
    rw [h] at htext
    exact List.drop_eq_nil_iff.1 htext.symm
  · intro h
    rw [List.drop_eq_nil_of_le h]
    rfl

namespace SymbolAt

theorem lt (h : SymbolAt chars i a next) : i < chars.length := by
  cases h with
  | escape hback ha => exact (List.getElem?_eq_some_iff.1 hback).1
  | plain hc hne => exact (List.getElem?_eq_some_iff.1 hc).1

/-- The text up to the next symbol ends with the text of this one. -/
theorem take_next (h : SymbolAt chars i a next) :
    chars.take next = chars.take i ++ a.text := by
  cases h with
  | escape hback ha => rw [← ha, List.take_add]
  | plain hc hne =>
    rw [List.take_add_one, hc]
    rfl

end SymbolAt

theorem lt_of_symbols_drop (h : symbols (chars.drop i) = a :: s) : i < chars.length := by
  obtain ⟨next, hat, -⟩ := exists_symbolAt h
  exact hat.lt

/-- A backslash escapes the character after it, or stands at the end. -/
theorem escaped_or_last (hback : chars[i]? = some '\\') (ha : (chars.drop i).take 2 = a.text) :
    (∃ c, a = .escaped c ∧ chars[i + 1]? = some c) ∨ (a = .plain '\\' ∧ chars.length = i + 1) := by
  have hlt := (List.getElem?_eq_some_iff.1 hback).1
  have hget : ∀ k, k < 2 → a.text[k]? = chars[i + k]? := by
    intro k hk
    rw [← ha, List.getElem?_take_of_lt hk, List.getElem?_drop]
  cases a with
  | escaped c => exact .inl ⟨c, rfl, (hget 1 (by decide)).symm⟩
  | plain c =>
    have hc : some c = some '\\' := (hget 0 (by decide)).trans hback
    have hend : chars[i + 1]? = none := (hget 1 (by decide)).symm
    rw [List.getElem?_eq_none_iff] at hend
    exact .inr ⟨congrArg Symbol.plain (Option.some.inj hc), by omega⟩

/-- Behind a backslash at the end one position is as good as the next. -/
theorem symbols_drop_last (hend : chars.length = i + 1) (h : symbols (chars.drop (i + 2)) = s) :
    symbols (chars.drop (i + 1)) = s := by
  have hlast : symbols (chars.drop (i + 1)) = [] := symbols_drop_eq_nil.2 (by omega)
  have hbehind : symbols (chars.drop (i + 2)) = [] := symbols_drop_eq_nil.2 (by omega)
  rw [hlast, ← h, hbehind]

/-- At a backslash stands no symbol that is an operator. -/
theorem ne_plain_of_text (hback : chars[i]? = some '\\') (ha : (chars.drop i).take 2 = a.text)
    (hc : c ≠ '\\') : a ≠ .plain c := by
  rcases escaped_or_last hback ha with ⟨d, rfl, -⟩ | ⟨rfl, -⟩
  · exact nofun
  · exact fun h => hc (Symbol.plain.inj h).symm

/-- A character that is no backslash is a symbol by itself. -/
theorem symbols_drop_eq_cons (hc : c ≠ '\\') :
    symbols (chars.drop i) = .plain c :: s ↔
      chars[i]? = some c ∧ symbols (chars.drop (i + 1)) = s := by
  constructor
  · intro h
    obtain ⟨next, hat, hnext⟩ := exists_symbolAt h
    cases hat with
    | escape hback ha => exact absurd rfl (ne_plain_of_text hback ha hc)
    | plain hget hne => exact ⟨hget, hnext⟩
  · rintro ⟨hget, rfl⟩
    obtain ⟨hlt, rfl⟩ := List.getElem?_eq_some_iff.1 hget
    rw [List.drop_eq_getElem_cons hlt, symbols]
    exact fun d ds h => absurd h hc

/-- Induction along the symbols of a text: what holds at the position after a symbol holds at the
symbol. The position after a backslash may lie behind the end. -/
theorem scan_induction (chars : List Char) {motive : Nat → Prop}
    (done : ∀ j, chars.length ≤ j → symbols (chars.drop j) = [] → motive j)
    (escape : ∀ j a, SymbolAt chars j a (j + 2) → chars[j]? = some '\\' →
      (∀ c, c ≠ '\\' → a ≠ .plain c) →
      symbols (chars.drop j) = a :: symbols (chars.drop (j + 2)) → motive (j + 2) → motive j)
    (plain : ∀ j c, SymbolAt chars j (.plain c) (j + 1) → chars[j]? = some c → c ≠ '\\' →
      symbols (chars.drop j) = .plain c :: symbols (chars.drop (j + 1)) → motive (j + 1) → motive j)
    (j : Nat) : motive j := by
  generalize hs : symbols (chars.drop j) = s
  induction s generalizing j with
  | nil => exact done j (symbols_drop_eq_nil.1 hs) hs
  | cons a s ih =>
    obtain ⟨next, hat, hnext⟩ := exists_symbolAt hs
    have hafter := ih next hnext
    rw [← hnext] at hs
    cases hat with
    | escape hback ha =>
      exact escape j a (.escape hback ha) hback (fun c => ne_plain_of_text hback ha) hs hafter
    | @plain c hc hne => exact plain j c (.plain hc hne) hc hne hs hafter

end Positions

end InPlace

end LineSearch
