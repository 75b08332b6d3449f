import LineSearch.Proofs.Concatenation
import LineSearch.Proofs.Positions

/-!
# Reading a class in place

The members of a class can be read by position in the text between its brackets. A member takes one
position or two, and a range is told by the character after its first member.

* `memberAt`, `dashAt`: a member, and whether a range goes on after it; `memberAt_eq`, `dashAt_eq`.
* `rangesFrom`, `classOf`: reads all ranges, and the whole class, with all operations checked.
* `rangesFrom_eq`, `classOf_eq`: no check fails, and the ranges are those of
  `CharRange.ofSymbols`, the class that of `CharSet.ofContent`.
-/

namespace LineSearch

namespace InPlace

/-- The member of a class that stands at position `i`, and the position after it. -/
def memberAt (body : List Char) (i : Nat) : Except Fault (Char × Nat) := do
  match ← charAt body i with
  | '\\' =>
    if i + 1 < body.length then return (← charAt body (i + 1), i + 2) else return ('\\', i + 1)
  | c => return (c, i + 1)

/-- Whether a `-` stands at position `i` that a member follows. -/
def dashAt (body : List Char) (i : Nat) : Except Fault Bool :=
  if i + 1 < body.length then return (← charAt body i) == '-' else return false

section Members

variable {body : List Char} {i next : Nat} {a : Symbol} {s : List Symbol} {c : Char}

/-- The member of a class is the symbol at its position. -/
theorem memberAt_eq (h : symbols (body.drop i) = a :: s) :
    ∃ next, memberAt body i = .ok (a.char, next) ∧ i < next ∧ symbols (body.drop next) = s := by
  obtain ⟨next, hat, hnext⟩ := exists_symbolAt h
  cases hat with
  | escape hback ha =>
    rcases escaped_or_last hback ha with ⟨c, rfl, hc⟩ | ⟨rfl, hend⟩
    · refine ⟨i + 2, ?_, by omega, hnext⟩
      unfold memberAt
      rw [charAt_eq hback, charAt_eq hc]
      exact if_pos (List.getElem?_eq_some_iff.1 hc).1
    · refine ⟨i + 1, ?_, by omega, symbols_drop_last hend hnext⟩
      unfold memberAt
      rw [charAt_eq hback]
      exact if_neg (by omega)
  | plain hc hne =>
    refine ⟨i + 1, ?_, by omega, hnext⟩
    unfold memberAt
    rw [charAt_eq hc]
    simp only [ok_bind]
    rfl

theorem lt_of_memberAt (h : memberAt body i = .ok (c, next)) : i < next := by
  cases hs : symbols (body.drop i) with
  | nil =>
    have hend := List.getElem?_eq_none_iff.2 (symbols_drop_eq_nil.1 hs)
    unfold memberAt charAt at h
    rw [hend] at h
    cases h
  | cons a s =>
    obtain ⟨next', hmember, hlt, -⟩ := memberAt_eq hs
    rw [hmember] at h
    cases h
    exact hlt

/-- A range goes on at an unescaped `-` that is not the last symbol. -/
theorem dashAt_eq (body : List Char) (i : Nat) :
    ∃ dash, dashAt body i = .ok dash ∧
      (dash = true ↔ ∃ last rest, symbols (body.drop i) = .plain '-' :: last :: rest) := by
  simp only [symbols_drop_eq_cons (show '-' ≠ '\\' by decide)]
  unfold dashAt
  split
  · rename_i hlt
    have hget := List.getElem?_eq_getElem (Nat.lt_of_succ_lt hlt)
    have hne := mt symbols_drop_eq_nil.1 (Nat.not_le.2 hlt)
    obtain ⟨last, rest, hrest⟩ := List.exists_cons_of_ne_nil hne
    refine ⟨body[i] == '-', by rw [charAt_eq hget]; rfl, ?_⟩
    simp [hget, hrest]
  · rename_i hlt
    have hnil := symbols_drop_eq_nil.2 (Nat.not_lt.1 hlt)
    exact ⟨false, rfl, by simp [hnil]⟩

end Members

/-- The ranges of a class content, from position `i` on. -/
def rangesFrom (body : List Char) (i : Nat) : Except Fault (List CharRange) :=
  if i < body.length then
    match _hfirst : memberAt body i with
    | .error fault => .error fault
    | .ok (first, next) => do
      if ← dashAt body next then
        match _hlast : memberAt body (next + 1) with
        | .error fault => .error fault
        | .ok (last, after) => return ⟨first, last⟩ :: (← rangesFrom body after)
      else return ⟨first, first⟩ :: (← rangesFrom body next)
  else return []
termination_by body.length - i
decreasing_by
  · have hfirst := lt_of_memberAt _hfirst
    have hlast := lt_of_memberAt _hlast
    omega
  · have hfirst := lt_of_memberAt _hfirst
    omega

/-- The class with a given content between its brackets. -/
def classOf : List Char → Except Fault CharSet
  | '^' :: body => return CharSet.ofRanges true (← rangesFrom body 0)
  | body => return CharSet.ofRanges false (← rangesFrom body 0)

section Ranges

variable {body : List Char} {i : Nat}

/-- One round of reading the members of a class. -/
theorem rangesFrom_round (hi : i < body.length) :
    rangesFrom body i = do
      let (first, next) ← memberAt body i
      if ← dashAt body next then
        let (last, after) ← memberAt body (next + 1)
        return ⟨first, last⟩ :: (← rangesFrom body after)
      else return ⟨first, first⟩ :: (← rangesFrom body next) := by
  rw [rangesFrom, if_pos hi]
  split
  · rename_i hfirst
    rw [hfirst]
    rfl
  · rename_i hfirst
    rw [hfirst]
    refine bind_congr fun dash => ?_
    split
    · split
      · rename_i hlast
        rw [hlast]
        rfl
      · rename_i hlast
        rw [hlast]
        rfl
    · rfl

/-- **Reading the members of a class never fails,** and gives its ranges. -/
theorem rangesFrom_eq (body : List Char) (i : Nat) :
    rangesFrom body i = .ok (CharRange.ofSymbols (symbols (body.drop i))) := by
  generalize hs : symbols (body.drop i) = s
  fun_induction CharRange.ofSymbols s generalizing i with
  | case1 first last rest ih =>
    obtain ⟨next, hfirst, -, hnext⟩ := memberAt_eq hs
    obtain ⟨dash, hdash, hiff⟩ := dashAt_eq body next
    have hafter := ((symbols_drop_eq_cons (by decide)).1 hnext).2
    obtain ⟨after, hlast, -, hrest⟩ := memberAt_eq hafter
    rw [hiff.2 ⟨last, rest, hnext⟩] at hdash
    rw [rangesFrom_round (lt_of_symbols_drop hs), hfirst]
    simp only [ok_bind, hdash, if_pos, hlast, ih _ hrest]
    rfl
  | case2 member rest hno ih =>
    obtain ⟨next, hfirst, -, hnext⟩ := memberAt_eq hs
    obtain ⟨dash, hdash, hiff⟩ := dashAt_eq body next
    have hfalse : dash = false := by
      rw [Bool.eq_false_iff, ne_eq, hiff, hnext]
      rintro ⟨last, rest', h⟩
      exact hno last rest' h
    rw [hfalse] at hdash
    rw [rangesFrom_round (lt_of_symbols_drop hs), hfirst]
    simp only [ok_bind, hdash, ih _ hnext]
    rfl
  | case3 =>
    rw [rangesFrom, if_neg (Nat.not_lt.2 (symbols_drop_eq_nil.1 hs))]
    rfl

/-- **Reading a class never fails,** and gives the class with this content. -/
theorem classOf_eq (content : List Char) :
    classOf content = .ok (CharSet.ofContent (symbols content)) := by
  unfold classOf
  split
  · rename_i body
    rw [rangesFrom_eq, symbols_plain (by decide)]
    rfl
  · rename_i hcaret
    rw [rangesFrom_eq]
    unfold CharSet.ofContent
    split
    · rename_i body hbody
      obtain ⟨hget, -⟩ := (symbols_drop_eq_cons (i := 0) (by decide)).1 hbody
      obtain ⟨rest, rfl⟩ := List.head?_eq_some_iff.1 (List.head?_eq_getElem?.trans hget)
      exact absurd rfl (hcaret rest)
    · rfl

end Ranges

end InPlace

end LineSearch
