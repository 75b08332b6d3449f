import LineSearch.Proofs.Balance
import LineSearch.Proofs.Positions

/-!
# Scanning for brackets and bars in place

The ends of groups and classes and the bars of a group can be looked for by position, in loops that
count how many parentheses are open. The loop for the end of a group starts at the parenthesis that
opens it, and the loop for bars behind it, so the one counts one more than the other; and an escape
may take each of them past the end.

* `groupEnd`, `classEnd`, `split`: the three scans, with all operations checked.
* `openAfter`: the depth after some symbols; `openAfter_balanced`, `openAfter_ne_of_bar`: balanced
  symbols keep it, and at a bar that is allowed inside of parentheses only it is not zero.
* `groupEndFrom_eq`, `classEndFrom_eq`: two of the scans never fail, and find what `closeGroup` and
  `closeSet` find.
* `splitFrom_eq`: the third one never fails either, if the depth never gets below zero, and finds
  what `splitBars` finds.
* `exists_bracketAt`: what stands before a bracket that was found can be cut out.
* `split_eq`: so a body that was cut out can be split.
-/

namespace LineSearch

section Depth

variable {bars : Bool} {depth k : Nat} {a : Symbol} {s l r : List Symbol}

/-- How many parentheses are open after some symbols if `depth` are before; none if more of them
are closed than are open. -/
def openAfter (depth : Nat) : List Symbol → Option Nat
  | [] => some depth
  | .plain '(' :: s => openAfter (depth + 1) s
  | .plain ')' :: s =>
    match depth with
    | 0 => none
    | depth + 1 => openAfter depth s
  | _ :: s => openAfter depth s

theorem openAfter_cons (hopen : a ≠ .plain '(') (hclose : a ≠ .plain ')') :
    openAfter depth (a :: s) = openAfter depth s := by
  rw [openAfter]
  · exact fun h => hopen h
  · exact fun h => hclose h

theorem openAfter_append (depth : Nat) (l r : List Symbol) :
    openAfter depth (l ++ r) = (openAfter depth l).bind fun d => openAfter d r := by
  fun_induction openAfter depth l with
  | case1 depth => rfl
  | case2 depth s ih => exact ih
  | case3 s => rfl
  | case4 s depth ih => exact ih
  | case5 depth a s hopen hclose ih =>
    rw [List.cons_append, openAfter_cons (fun h => hopen h) (fun h => hclose h), ih]

/-- With more parentheses open before, so many more are open after. -/
theorem openAfter_add (h : openAfter depth s = some k) (more : Nat) :
    openAfter (depth + more) s = some (k + more) := by
  fun_induction openAfter depth s with
  | case1 depth =>
    cases h
    rfl
  | case2 depth s ih =>
    rw [openAfter, Nat.add_right_comm]
    exact ih h
  | case3 s => cases h
  | case4 s depth ih =>
    rw [Nat.succ_add, openAfter]
    exact ih h
  | case5 depth a s hopen hclose ih =>
    rw [openAfter_cons (fun h => hopen h) (fun h => hclose h)]
    exact ih h

/-- **Balanced symbols leave the depth as it was.** -/
theorem openAfter_balanced (h : Balanced bars s) (depth : Nat) :
    openAfter depth s = some depth := by
  induction h generalizing depth with
  | nil => rfl
  | symbol hopen hclose _ _ ih => rw [openAfter_cons hopen hclose, ih]
  | group _ _ ihbody ih =>
    rw [List.cons_append, openAfter, openAfter_append, ihbody, Option.bind_some, openAfter, ih]

/-- **A bar that is allowed inside of parentheses only** stands at a depth of its own. -/
theorem openAfter_ne_of_bar (h : Balanced false s) (heq : s = l ++ .plain '|' :: r) :
    openAfter 0 l ≠ some 0 := by
  generalize hbars : false = bars at h
  induction h generalizing l with
  | nil => exact absurd heq (by simp)
  | symbol hopen hclose hbar _ ih =>
    cases l with
    | nil =>
      have htrue := hbar (List.cons.inj heq).1
      exact absurd (hbars.trans htrue) Bool.false_ne_true
    | cons b l =>
      obtain ⟨rfl, htail⟩ := List.cons.inj heq
      rw [openAfter_cons hopen hclose]
      exact ih htail hbars
  | @group _ body s hbody _ _ ih =>
    cases l with
    | nil => exact absurd (List.cons.inj heq).1 (by simp)
    | cons b l =>
      obtain ⟨rfl, htail⟩ := List.cons.inj heq
      rw [openAfter]
      rcases List.append_eq_append_iff.1 htail with ⟨m, rfl, hm⟩ | ⟨m, rfl, hm⟩
      · cases m with
        | nil => exact absurd (List.cons.inj hm).1 (by simp)
        | cons c m =>
          -- the bar stands after the group
          obtain ⟨rfl, hs⟩ := List.cons.inj hm
          rw [openAfter_append, openAfter_balanced hbody, Option.bind_some, openAfter]
          exact ih hs hbars
      · -- the bar stands inside of it, where one more is open than in the body alone
        have hinside := openAfter_balanced hbody 0
        rw [openAfter_append, Option.bind_eq_some_iff] at hinside
        obtain ⟨d, hd, -⟩ := hinside
        rw [openAfter_add hd 1]
        simp

end Depth

namespace InPlace

/-- Where the parenthesis stands that brings the depth to zero, from position `j` on. -/
def groupEndFrom (chars : List Char) (depth j : Nat) : Except Fault (Option Nat) :=
  if j < chars.length then do
    match ← charAt chars j with
    | '\\' => groupEndFrom chars depth (j + 2)
    | '(' => groupEndFrom chars (depth + 1) (j + 1)
    | ')' =>
      let depth ← minus depth 1
      if depth = 0 then return some j else groupEndFrom chars depth (j + 1)
    | _ => groupEndFrom chars depth (j + 1)
  else return none
termination_by chars.length - j

/-- Where the parenthesis at position `opening` is closed. -/
def groupEnd (chars : List Char) (opening : Nat) : Except Fault (Option Nat) :=
  groupEndFrom chars 0 opening

/-- Where the first unescaped `]` stands, from position `j` on. -/
def classEndFrom (chars : List Char) (j : Nat) : Except Fault (Option Nat) :=
  if j < chars.length then do
    match ← charAt chars j with
    | '\\' => classEndFrom chars (j + 2)
    | ']' => return some j
    | _ => classEndFrom chars (j + 1)
  else return none
termination_by chars.length - j

/-- Where the class that begins at position `opening` ends. -/
def classEnd (chars : List Char) (opening : Nat) : Except Fault (Option Nat) :=
  classEndFrom chars (opening + 1)

/-- The parts of a body between its bars, from position `j` on. The part that `j` stands in begins
at position `start`. -/
def splitFrom (body : List Char) (depth start j : Nat) : Except Fault (List (List Char)) :=
  if j < body.length then do
    match ← charAt body j with
    | '\\' => splitFrom body depth start (j + 2)
    | '(' => splitFrom body (depth + 1) start (j + 1)
    | ')' => splitFrom body (← minus depth 1) start (j + 1)
    | '|' =>
      if depth = 0 then
        let part ← slice body start j
        let parts ← splitFrom body depth (j + 1) (j + 1)
        return part :: parts
      else splitFrom body depth start (j + 1)
    | _ => splitFrom body depth start (j + 1)
  else do
    let part ← slice body start body.length
    return [part]
termination_by body.length - j

/-- The parts of a body between its bars. -/
def split (body : List Char) : Except Fault (List (List Char)) :=
  splitFrom body 0 0 0

section Brackets

variable {chars : List Char} {j : Nat}

/-- The position of the bracket up to which some symbols were read. -/
def bracketAt (chars : List Char) (found : Option (List Symbol × List Symbol)) : Option Nat :=
  found.map fun found => chars.length - ((found.2.flatMap Symbol.text).length + 1)

theorem bracketAt_map_cons (chars : List Char) (a : Symbol)
    (found : Option (List Symbol × List Symbol)) :
    bracketAt chars (found.map fun found => (a :: found.1, found.2)) = bracketAt chars found :=
  Option.map_map _ _ _

theorem bracketAt_drop (hj : j < chars.length) (content : List Symbol) :
    bracketAt chars (some (content, symbols (chars.drop (j + 1)))) = some j := by
  unfold bracketAt
  rw [Option.map_some, text_symbols, List.length_drop]
  exact congrArg some (by omega)

/-- **The scan for the end of a group** never counts below zero, and finds the parenthesis that
closes it. The depth is higher by one than that of `closeGroup`, since the group itself counts. -/
theorem groupEndFrom_eq (chars : List Char) (depth j : Nat) :
    groupEndFrom chars (depth + 1) j =
      .ok (bracketAt chars (closeGroup depth (symbols (chars.drop j)))) := by
  induction j using scan_induction chars generalizing depth with
  | done j hend hs =>
    rw [groupEndFrom, if_neg (by omega), hs]
    rfl
  | escape j a hat hback hne hs ih =>
    have hopen : a ≠ .plain '(' := hne _ (by decide)
    have hclose : a ≠ .plain ')' := hne _ (by decide)
    rw [groupEndFrom, if_pos hat.lt, charAt_eq hback, hs, closeGroup_cons hopen hclose,
      bracketAt_map_cons]
    exact ih depth
  | plain j c hat hc hne hs ih =>
    rw [groupEndFrom, if_pos hat.lt, charAt_eq hc, hs]
    by_cases hopen : c = '('
    · subst hopen
      rw [closeGroup, bracketAt_map_cons]
      exact ih (depth + 1)
    · by_cases hclose : c = ')'
      · subst hclose
        cases depth with
        | zero =>
          rw [closeGroup, bracketAt_drop hat.lt]
          rfl
        | succ depth =>
          rw [closeGroup, bracketAt_map_cons]
          exact ih depth
      · rw [closeGroup_cons (by simpa using hopen) (by simpa using hclose), bracketAt_map_cons,
          ← ih depth]
        simp only [ok_bind]

/-- **The scan for the end of a class** never fails, and finds the first unescaped `]`. -/
theorem classEndFrom_eq (chars : List Char) (j : Nat) :
    classEndFrom chars j = .ok (bracketAt chars (closeSet (symbols (chars.drop j)))) := by
  induction j using scan_induction chars with
  | done j hend hs =>
    rw [classEndFrom, if_neg (by omega), hs]
    rfl
  | escape j a hat hback hne hs ih =>
    have hclose : a ≠ .plain ']' := hne _ (by decide)
    rw [classEndFrom, if_pos hat.lt, charAt_eq hback, hs, closeSet, bracketAt_map_cons]
    · exact ih
    · exact hclose
  | plain j c hat hc hne hs ih =>
    rw [classEndFrom, if_pos hat.lt, charAt_eq hc, hs]
    by_cases hclose : c = ']'
    · subst hclose
      rw [closeSet, bracketAt_drop hat.lt]
      rfl
    · rw [closeSet, bracketAt_map_cons, ← ih]
      · simp only [ok_bind]
      · simpa using hclose

end Brackets

section Bars

variable {body : List Char} {depth j start next : Nat} {a : Symbol}

/-- The parts of a body as they stand in it. -/
def texts (parts : List (List Symbol)) : List (List Char) :=
  parts.map fun part => part.flatMap Symbol.text

theorem texts_modifyHead (a : Symbol) (parts : List (List Symbol)) :
    texts (parts.modifyHead (a :: ·)) = (texts parts).modifyHead (a.text ++ ·) := by
  cases parts with
  | nil => rfl
  | cons part parts => rfl

theorem modifyHead_nil_append {α : Type} (parts : List (List α)) :
    parts.modifyHead ([] ++ ·) = parts := by
  cases parts <;> rfl

/-- The symbol at a position goes to the part that it stands in. -/
theorem SymbolAt.texts_modifyHead (h : SymbolAt body j a next) (hstart : start ≤ j)
    (parts : List (List Symbol)) :
    (texts (parts.modifyHead (a :: ·))).modifyHead ((body.take j).drop start ++ ·) =
      (texts parts).modifyHead ((body.take next).drop start ++ ·) := by
  have hle : start ≤ (body.take j).length := by
    have hlt := h.lt
    rw [List.length_take]
    omega
  rw [InPlace.texts_modifyHead, modifyHead_modifyHead, h.take_next,
    List.drop_append_of_le_length hle]
  simp only [List.append_assoc]

/-- **The scan for the bars of a group** never fails where no parenthesis is closed that is not
open, and finds the parts between them. The part that `j` stands in has been passed up to `j`. -/
theorem splitFrom_eq (hstart : start ≤ j) (hlen : start ≤ body.length)
    (hopen : openAfter depth (symbols (body.drop j)) ≠ none) :
    splitFrom body depth start j =
      .ok ((texts (splitBars depth (symbols (body.drop j)))).modifyHead
        ((body.take j).drop start ++ ·)) := by
  induction j using scan_induction body generalizing depth start with
  | done j hend hs =>
    have hslice : slice body start body.length = .ok (body.drop start) := by
      unfold slice
      rw [if_pos ⟨hlen, Nat.le_refl _⟩, List.take_length]
    rw [splitFrom, if_neg (by omega), hslice, hs, List.take_of_length_le hend]
    show .ok [body.drop start] = Except.ok [body.drop start ++ []]
    rw [List.append_nil]
  | escape j a hat hback hne hs ih =>
    have hparen : a ≠ .plain '(' := hne _ (by decide)
    have hclose : a ≠ .plain ')' := hne _ (by decide)
    have hbar : a = .plain '|' → 0 < depth := fun h => absurd h (hne _ (by decide))
    rw [hs, openAfter_cons hparen hclose] at hopen
    rw [splitFrom, if_pos hat.lt, charAt_eq hback, hs, splitBars_cons hparen hclose hbar,
      hat.texts_modifyHead hstart]
    exact ih (by omega) hlen hopen
  | plain j c hat hc hne hs ih =>
    rw [hs] at hopen
    rw [splitFrom, if_pos hat.lt, charAt_eq hc, hs]
    by_cases hparen : c = '('
    · subst hparen
      rw [splitBars, hat.texts_modifyHead hstart]
      exact ih (by omega) hlen hopen
    · by_cases hclose : c = ')'
      · subst hclose
        cases depth with
        | zero => exact absurd rfl hopen
        | succ depth =>
          rw [splitBars, hat.texts_modifyHead hstart]
          exact ih (by omega) hlen hopen
      · rw [openAfter_cons (by simpa using hparen) (by simpa using hclose)] at hopen
        by_cases hbar : c = '|'
        · subst hbar
          cases depth with
          | zero =>
            -- a part ends here, and nothing of the next one has been passed yet
            have hslice : slice body start j = .ok ((body.take j).drop start) := by
              have hlt := hat.lt
              unfold slice
              rw [if_pos ⟨hstart, by omega⟩]
            have hafter := ih (Nat.le_refl (j + 1)) hat.lt hopen
            rw [List.drop_take, Nat.sub_self, List.take_zero, modifyHead_nil_append] at hafter
            simp only [ok_bind, if_pos, hslice, hafter]
            rw [splitBars]
            show .ok (_ :: texts _) = Except.ok ((_ ++ []) :: texts _)
            rw [List.append_nil]
          | succ depth =>
            rw [splitBars, hat.texts_modifyHead hstart]
            exact ih (by omega) hlen hopen
        · have hnone : Symbol.plain c = .plain '|' → 0 < depth :=
            fun h => absurd (Symbol.plain.inj h) hbar
          rw [splitBars_cons (by simpa using hparen) (by simpa using hclose) hnone,
            hat.texts_modifyHead hstart, ← ih (by omega) hlen hopen]
          simp only [ok_bind]

end Bars

section Stretches

variable {chars body : List Char} {i : Nat} {c : Char} {bars : Bool} {s content rest : List Symbol}

/-- Symbols are read back from their text if a lone backslash stands at their end only. -/
theorem symbols_text_of_paired (h : Paired s) : symbols (s.flatMap Symbol.text) = s := by
  induction s with
  | nil => rfl
  | cons a s ih =>
    have hs := ih (Paired.tail (l := [a]) h)
    rw [List.flatMap_cons]
    cases a with
    | escaped c =>
      rw [Symbol.text, List.cons_append, List.singleton_append, symbols, hs]
    | plain c =>
      by_cases hc : c = '\\'
      · subst hc
        rw [h [] s rfl]
        rfl
      · rw [Symbol.text, List.singleton_append, symbols, hs]
        exact fun d ds hback => absurd hback hc

/-- **What stands before a bracket** can be cut out, and the symbols on both sides of the bracket
are those of the text there. -/
theorem exists_bracketAt (h : symbols (chars.drop i) = content ++ .plain c :: rest) :
    ∃ close, bracketAt chars (some (content, rest)) = some close ∧ i ≤ close ∧
      chars[close]? = some c ∧ slice chars i close = .ok (content.flatMap Symbol.text) ∧
      symbols (content.flatMap Symbol.text) = content ∧
      symbols (chars.drop (close + 1)) = rest := by
  have hpaired : Paired (content ++ .plain c :: rest) := h ▸ paired_symbols (chars.drop i)
  have hcontent : ∀ a ∈ content, a ≠ .plain '\\' := Paired.forall_ne (l := []) hpaired
  have hrest : Paired rest := Paired.tail (l := [.plain c]) hpaired.tail
  have htext : chars.drop i =
      content.flatMap Symbol.text ++ c :: rest.flatMap Symbol.text := by
    rw [← text_symbols (chars.drop i), h, List.flatMap_append]
    rfl
  have hlen := congrArg List.length htext
  rw [List.length_drop, List.length_append, List.length_cons] at hlen
  refine ⟨i + (content.flatMap Symbol.text).length, ?_, Nat.le_add_right _ _, ?_, ?_,
    symbols_text hcontent, ?_⟩
  · have hplace : chars.length - ((rest.flatMap Symbol.text).length + 1) =
        i + (content.flatMap Symbol.text).length := by omega
    exact congrArg some hplace
  · rw [← List.getElem?_drop, htext, List.getElem?_append_right (Nat.le_refl _), Nat.sub_self]
    rfl
  · exact slice_eq htext (by omega)
  · rw [Nat.add_assoc, ← List.drop_drop, htext, List.drop_length_add_append, List.drop_one,
      List.tail_cons, symbols_text_of_paired hrest]

/-- **The partner of a parenthesis** is found in place. -/
theorem groupEnd_eq (h : chars[i]? = some '(') :
    groupEnd chars i = .ok (bracketAt chars (closeGroup 0 (symbols (chars.drop (i + 1))))) := by
  unfold groupEnd
  rw [groupEndFrom, if_pos (List.getElem?_eq_some_iff.1 h).1, charAt_eq h]
  exact groupEndFrom_eq chars 0 (i + 1)

/-- **A balanced body is split** in place. -/
theorem split_eq (h : Balanced bars (symbols body)) :
    split body = .ok (texts (alternatives (symbols body))) := by
  have hopen : openAfter 0 (symbols (body.drop 0)) ≠ none := by
    rw [List.drop_zero, openAfter_balanced h]
    simp
  have hsplit := splitFrom_eq (Nat.le_refl 0) (Nat.zero_le _) hopen
  rw [List.take_zero, List.drop_nil, modifyHead_nil_append, List.drop_zero] at hsplit
  exact hsplit

-- without a partner a parenthesis would be counted below zero
example : split "a)|b".toList = .error .negative := by cbv

end Stretches

end InPlace

end LineSearch
