import LineSearch.Proofs.ClassInPlace
import LineSearch.Proofs.Scanning
import LineSearch.Proofs.Spelling

/-!
# Reading a pattern in place

A whole pattern can be read by position, with the scans for brackets and with looks at single
characters in between. Every look, stretch and difference is checked, in the inside of groups too,
and none of the checks ever fails.

* `Item`, `itemAt`: what stands at a position, with the parts of a group cut out but not read yet.
* `finds_lexeme`: it is the lexeme that is read first from there on.
* `size_itemAt`: so reading always goes on to something smaller.
* `readFrom`, `compile`: reads a whole pattern and numbers its groups on the way; `readFrom_eq`: no
  fault occurs, and the pieces are those of `parse` with their groups numbered.
* `Whole`, `Cut`: a group whose body was cut out and split as it should be; `exists_cut`: so is
  every group that is closed.
* `compile_exact`: the scans for groups never fail, and compiling in place is compiling.
-/

namespace LineSearch

namespace InPlace

/-- What is read at a position. The parts of a group are still to be read. -/
inductive Item where
  | group (parts : List (List Char)) (quantifier : Quantifier)
  | atom (atom : Atom) (quantifier : Quantifier)
  | backref (group : Nat)
  | bare (c : Char)

/-- The quantifier at position `i`, if its sign stands there, and the position after it. -/
def quantifiedAt (chars : List Char) (item : Quantifier → Item) (i : Nat) : Item × Nat :=
  match chars[i]? with
  | some '+' => (item .plus, i + 1)
  | some '?' => (item .optional, i + 1)
  | _ => (item .one, i)

/-- What is read from the character at position `i`, which stands after a backslash. -/
def escapeAt (chars : List Char) (i : Nat) : Except Fault (Item × Nat) := do
  let c ← charAt chars i
  if '1' ≤ c ∧ c ≤ '9' then return (.backref (← minus c.toNat '0'.toNat), i + 1)
  else if c = 's' then return quantifiedAt chars (.atom (.named .space)) (i + 1)
  else if c = 'd' then return quantifiedAt chars (.atom (.named .digit)) (i + 1)
  else if c = 'w' then return quantifiedAt chars (.atom (.named .word)) (i + 1)
  else return quantifiedAt chars (.atom (.escaped c)) (i + 1)

/-- What is read at position `i`, and the position after it. -/
def itemAt (chars : List Char) (i : Nat) : Except Fault (Item × Nat) := do
  let c ← charAt chars i
  let next := i + 1
  match c with
  | '(' =>
    match ← groupEnd chars (← minus next 1) with
    | some close =>
      let parts ← split (← slice chars next close)
      return quantifiedAt chars (.group parts) (close + 1)
    | none => return (.bare '(', next)
  | '\\' =>
    if next < chars.length then escapeAt chars next
    else return quantifiedAt chars (.atom (.literal '\\')) next
  | '[' =>
    match ← classEnd chars (← minus next 1) with
    | some close =>
      let set ← classOf (← slice chars next close)
      return quantifiedAt chars (.atom (.set set)) (close + 1)
    | none => return (.bare '[', next)
  | '.' => return quantifiedAt chars (.atom .any) next
  | c => return quantifiedAt chars (.atom (.literal c)) next

/-- The item that is read where a lexeme is. -/
def Item.ofLexeme : Lexeme → Item
  | .group body q => .group (texts (alternatives body)) q
  | .atom x q => .atom x q
  | .backref n => .backref n
  | .bare c => .bare c

section Items

variable {chars : List Char} {i j : Nat} {a : Symbol} {s rest : List Symbol}

/-- What is found from position `i` on is some lexeme, with what follows it. -/
def Finds (chars : List Char) (i : Nat) (found : Except Fault (Item × Nat))
    (read : Lexeme × List Symbol) : Prop :=
  ∃ next, found = .ok (.ofLexeme read.1, next) ∧ i < next ∧ symbols (chars.drop next) = read.2

/-- **A quantifier is taken alike** in place. -/
theorem finds_quantified (f : Quantifier → Lexeme) (hlt : i < j)
    (h : symbols (chars.drop j) = s) :
    Finds chars i (.ok (quantifiedAt chars (fun q => .ofLexeme (f q)) j)) (quantified f s) := by
  unfold quantifiedAt
  split
  · rename_i hplus
    have hs := (symbols_drop_eq_cons (by decide)).2 ⟨hplus, rfl⟩
    rw [← h, hs]
    exact ⟨j + 1, rfl, by omega, rfl⟩
  · rename_i hoptional
    have hs := (symbols_drop_eq_cons (by decide)).2 ⟨hoptional, rfl⟩
    rw [← h, hs]
    exact ⟨j + 1, rfl, by omega, rfl⟩
  · rename_i hplus hoptional
    have hsign : NoSign s := by
      rw [← h]
      apply noSign_symbols
      rw [List.head?_drop]
      exact ⟨hplus, hoptional⟩
    have hnone := quantified_sign f .one hsign
    rw [Quantifier.sign, List.map_nil, List.nil_append] at hnone
    rw [hnone]
    exact ⟨j, rfl, hlt, h⟩

theorem finds_escape {c : Char} (hc : chars[i + 1]? = some c)
    (h : symbols (chars.drop (i + 2)) = s) :
    Finds chars i (escapeAt chars (i + 1)) (escape c s) := by
  have hatom : ∀ x : Atom,
      Finds chars i (.ok (quantifiedAt chars (.atom x) (i + 2))) (quantified (.atom x) s) :=
    fun x => finds_quantified (.atom x) (by omega) h
  unfold escapeAt escape
  rw [charAt_eq hc, ok_bind]
  split
  · rename_i hdigit
    have hminus : minus c.toNat '0'.toNat = .ok (c.toNat - '0'.toNat) :=
      if_pos (Nat.le_trans (by decide) hdigit.1)
    rw [hminus]
    exact ⟨i + 2, rfl, by omega, h⟩
  · split
    · exact hatom _
    · split
      · exact hatom _
      · split <;> exact hatom _

/-- The parts of a group are cut out of the text. -/
theorem finds_group (hopen : chars[i]? = some '(') (h : symbols (chars.drop (i + 1)) = s) :
    Finds chars i (itemAt chars i) (lexeme (.plain '(') s) := by
  have hlt := (List.getElem?_eq_some_iff.1 hopen).1
  have hminus : minus (i + 1) 1 = .ok i := if_pos (by omega)
  unfold itemAt lexeme
  simp only [charAt_eq hopen, ok_bind, hminus, groupEnd_eq hopen, h]
  cases hclose : closeGroup 0 s with
  | none => exact ⟨i + 1, rfl, by omega, h⟩
  | some found =>
    obtain ⟨body, rest⟩ := found
    rw [append_of_closeGroup hclose] at h
    obtain ⟨close, hfound, hle, -, hslice, hbody, hrest⟩ := exists_bracketAt h
    have hsplit := split_eq (hbody.symm ▸ balanced_of_closeGroup hclose)
    rw [hbody] at hsplit
    simp only [hfound, hslice, ok_bind, hsplit]
    exact finds_quantified (.group body) (by omega) hrest

/-- The members of a class are read from the text between its brackets. -/
theorem finds_class (hopen : chars[i]? = some '[') (h : symbols (chars.drop (i + 1)) = s) :
    Finds chars i (itemAt chars i) (lexeme (.plain '[') s) := by
  have hlt := (List.getElem?_eq_some_iff.1 hopen).1
  have hminus : minus (i + 1) 1 = .ok i := if_pos (by omega)
  have hend : classEnd chars i = .ok (bracketAt chars (closeSet s)) := h ▸ classEndFrom_eq chars _
  unfold itemAt lexeme
  simp only [charAt_eq hopen, ok_bind, hminus, hend]
  cases hclose : closeSet s with
  | none => exact ⟨i + 1, rfl, by omega, h⟩
  | some found =>
    obtain ⟨content, rest⟩ := found
    rw [append_of_closeSet hclose] at h
    obtain ⟨close, hfound, hle, -, hslice, hcontent, hrest⟩ := exists_bracketAt h
    have hclass := classOf_eq (content.flatMap Symbol.text)
    rw [hcontent] at hclass
    simp only [hfound, hslice, ok_bind, hclass]
    exact finds_quantified (.atom (.set (CharSet.ofContent content))) (by omega) hrest

/-- **What stands at a position is read alike** in place. -/
theorem finds_lexeme (h : symbols (chars.drop i) = a :: s) :
    Finds chars i (itemAt chars i) (lexeme a s) := by
  obtain ⟨next, hat, hnext⟩ := exists_symbolAt h
  cases hat with
  | escape hback ha =>
    rcases escaped_or_last hback ha with ⟨c, rfl, hc⟩ | ⟨rfl, hend⟩
    · have hitem : itemAt chars i = escapeAt chars (i + 1) := by
        unfold itemAt
        rw [charAt_eq hback]
        exact if_pos (List.getElem?_eq_some_iff.1 hc).1
      rw [hitem]
      exact finds_escape hc hnext
    · have hitem : itemAt chars i = .ok (quantifiedAt chars (.atom (.literal '\\')) (i + 1)) := by
        unfold itemAt
        rw [charAt_eq hback]
        exact if_neg (by omega)
      rw [hitem]
      exact finds_quantified (.atom (.literal '\\')) (by omega) (symbols_drop_last hend hnext)
  | @plain c hc hne =>
    by_cases hgroup : c = '('
    · subst hgroup
      exact finds_group hc hnext
    · by_cases hset : c = '['
      · subst hset
        exact finds_class hc hnext
      · by_cases hany : c = '.'
        · subst hany
          unfold itemAt
          rw [charAt_eq hc]
          exact finds_quantified (.atom .any) (by omega) hnext
        · have hitem : itemAt chars i = .ok (quantifiedAt chars (.atom (.literal c)) (i + 1)) := by
            unfold itemAt
            rw [charAt_eq hc]
            simp only [ok_bind]
            rfl
          have hread : lexeme (.plain c) s = quantified (.atom (.literal c)) s := by
            unfold lexeme
            split <;> simp_all
          rw [hitem, hread]
          exact finds_quantified (.atom (.literal c)) (by omega) hnext

end Items

/-- How much is still to be read of an item. A part counts for more than what it is made of, and a
group for more than its parts. -/
def Item.size : Item → Nat
  | group parts _ => (parts.map fun part => 3 * part.length + 1).sum + 1
  | _ => 0

section Sizes

variable {chars : List Char} {i next : Nat} {found : Item} {body s : List Symbol}

theorem sum_size_le {parts : List (List Char)} (hne : parts ≠ []) :
    (parts.map fun part => 3 * part.length + 1).sum ≤ 3 * (['|'].intercalate parts).length + 1 := by
  induction parts with
  | nil => exact absurd rfl hne
  | cons part parts ih =>
    cases parts with
    | nil => simp
    | cons part' parts =>
      have hparts := ih (by simp)
      rw [List.map_cons, List.sum_cons, List.intercalate_cons_cons, List.length_append,
        List.length_append, List.length_singleton]
      omega

/-- The parts of a group with bars between them make up its body. -/
theorem intercalate_texts (body : List Symbol) :
    ['|'].intercalate (texts (alternatives body)) = body.flatMap Symbol.text := by
  have hjoin := flatMap_intercalate Symbol.text (.plain '|') (alternatives body)
  rw [alternatives, intercalate_splitBars] at hjoin
  exact hjoin.symm

/-- **Reading in place gets on:** it goes to a later position, and the parts of a group take up no
more than what has been passed. -/
theorem size_itemAt (hi : i < chars.length) (h : itemAt chars i = .ok (found, next)) :
    i < next ∧ found.size < 3 * (chars.length - i) := by
  obtain ⟨a, s, hs⟩ := List.exists_cons_of_ne_nil (mt symbols_drop_eq_nil.1 (Nat.not_le.2 hi))
  obtain ⟨next', hitem, hlt, -⟩ := finds_lexeme hs
  rw [hitem] at h
  cases h
  refine ⟨hlt, ?_⟩
  have htext := congrArg List.length (text_symbols (chars.drop i))
  rw [hs, List.length_drop] at htext
  obtain ⟨w, hreads, heq⟩ := lexeme_reads a s
  rw [heq] at htext
  generalize (lexeme a s).1 = x at hreads ⊢
  cases hreads with
  | group body q =>
    have hne : texts (alternatives body) ≠ [] := by
      rw [texts, ne_eq, List.map_eq_nil_iff]
      exact splitBars_ne_nil 0 body
    have hsum := sum_size_le hne
    have hopen : (Symbol.plain '(').text.length = 1 := rfl
    rw [intercalate_texts] at hsum
    simp only [List.cons_append, List.flatMap_cons, List.flatMap_append, List.length_append]
      at htext
    show ((texts (alternatives body)).map fun part => 3 * part.length + 1).sum + 1 < _
    omega
  | _ => exact Nat.mul_pos (by decide) (by omega)

end Sizes

mutual
/-- The piece of an item when `taken` group numbers are in use already, and the last one then. -/
def readItem (item : Item) (taken : Nat) : Except Fault (Piece × Nat) :=
  match item with
  | .group parts q => do
    let (alternatives, last) ← readParts parts (taken + 1)
    return (.group (some (.next taken)) alternatives q, last)
  | .atom x q => return (.atom x q, taken)
  | .backref n => return (.backref n .one, taken)
  | .bare c => return (.atom (.literal c) .one, taken)
termination_by item.size
decreasing_by
  simp [Item.size]

/-- The pieces that are read from position `i` on. -/
def readFrom (chars : List Char) (i taken : Nat) : Except Fault (List Piece × Nat) :=
  if _hi : i < chars.length then
    match _hitem : itemAt chars i with
    | .error fault => .error fault
    | .ok (item, next) => do
      let (piece, last) ← readItem item taken
      let (pieces, last) ← readFrom chars next last
      return (piece :: pieces, last)
  else return ([], taken)
termination_by 3 * (chars.length - i)
decreasing_by
  · exact (size_itemAt _hi _hitem).2
  · have hnext := (size_itemAt _hi _hitem).1
    omega

/-- The pieces of the parts of a group. -/
def readParts (parts : List (List Char)) (taken : Nat) :
    Except Fault (List (List Piece) × Nat) :=
  match parts with
  | [] => return ([], taken)
  | part :: parts => do
    let (pieces, last) ← readFrom part 0 taken
    let (alternatives, last) ← readParts parts last
    return (pieces :: alternatives, last)
termination_by (parts.map fun part => 3 * part.length + 1).sum
decreasing_by
  · simp
    omega
  · simp
end

/-- Compiles a pattern in place. -/
def compile (pattern : List Char) (taken : Nat) : Except Fault Program := do
  let (pieces, last) ← readFrom pattern 0 taken
  return ⟨pieces, last⟩

section Reading

variable {chars : List Char} {i next : Nat} {found : Item} {a : Symbol}
  {s body rest part : List Symbol}

/-- One round of reading. -/
theorem readFrom_item (hi : i < chars.length) (h : itemAt chars i = .ok (found, next))
    (taken : Nat) :
    readFrom chars i taken = do
      let (piece, last) ← readItem found taken
      let (pieces, last) ← readFrom chars next last
      return (piece :: pieces, last) := by
  rw [readFrom, dif_pos hi]
  split
  · rename_i hfault
    rw [h] at hfault
    cases hfault
  · rename_i hfound
    rw [h] at hfound
    cases hfound
    rfl

/-- No backslash stands alone in a group: it would be the last symbol of the pattern, and the
parenthesis that closes the group comes after it. -/
theorem ne_of_mem_alternatives (hpair : Paired s) (hclose : closeGroup 0 s = some (body, rest))
    (hpart : part ∈ alternatives body) : ∀ b ∈ part, b ≠ .plain '\\' := by
  rw [append_of_closeGroup hclose] at hpair
  intro b hb
  exact Paired.forall_ne (l := []) hpair b (mem_of_mem_alternatives hpart hb)

/-- The parts of a group are read one after another, each by itself. -/
theorem readParts_eq {parts : List (List Symbol)}
    (h : ∀ part ∈ parts, ∀ taken, readFrom (part.flatMap Symbol.text) 0 taken =
      .ok (Piece.numberPieces taken (parse part))) (taken : Nat) :
    readParts (texts parts) taken = .ok (Piece.numberAlternatives taken (parts.map parse)) := by
  induction parts generalizing taken with
  | nil =>
    rw [texts, List.map_nil, readParts]
    rfl
  | cons part parts ih =>
    have hparts := ih fun b hb => h b (List.mem_cons_of_mem _ hb)
    rw [texts, List.map_cons, readParts, h part List.mem_cons_self, ok_bind]
    show (readParts (texts parts) _ >>= _) = _
    rw [hparts, ok_bind]
    rfl

/-- An item is read as the piece of its lexeme, if the alternatives of a group are. -/
theorem readItem_eq (hpair : Paired s)
    (h : ∀ body q, (lexeme a s).1 = .group body q → ∀ part ∈ alternatives body,
      ∀ chars i taken, symbols (chars.drop i) = part →
        readFrom chars i taken = .ok (Piece.numberPieces taken (parse part)))
    (taken : Nat) :
    readItem (.ofLexeme (lexeme a s).1) taken = .ok ((lexeme a s).1.piece.number taken) := by
  have hread := lexeme_readsAs a s
  generalize lexeme a s = read at hread h ⊢
  cases hread with
  | @group body _ after rest q hclose hq =>
    have hparts : ∀ part ∈ alternatives body, ∀ taken,
        readFrom (part.flatMap Symbol.text) 0 taken =
          .ok (Piece.numberPieces taken (parse part)) := by
      intro part hpart k
      apply h body q rfl part hpart
      exact symbols_text (ne_of_mem_alternatives hpair hclose hpart)
    show readItem (.group (texts (alternatives body)) q) taken = _
    rw [readItem, readParts_eq hparts]
    rfl
  | _ =>
    unfold Item.ofLexeme
    rw [readItem]
    rfl

/-- **Reading in place never fails,** and gives the pieces with their groups numbered. -/
theorem readFrom_eq (chars : List Char) (i taken : Nat) :
    readFrom chars i taken =
      .ok (Piece.numberPieces taken (parse (symbols (chars.drop i)))) := by
  generalize hs : symbols (chars.drop i) = s
  induction s using reading_induction generalizing chars i taken with
  | nil =>
    have hend := symbols_drop_eq_nil.1 hs
    rw [readFrom, dif_neg (by omega), parse_nil]
    rfl
  | cons a s ih iha =>
    obtain ⟨next, hitem, -, hnext⟩ := finds_lexeme hs
    have hpaired := paired_symbols (chars.drop i)
    rw [hs] at hpaired
    have hpair : Paired s := Paired.tail (l := [a]) hpaired
    rw [readFrom_item (lt_of_symbols_drop hs) hitem, readItem_eq hpair iha, ok_bind, parse_cons,
      Piece.numberPieces_cons]
    show (readFrom chars next _ >>= _) = _
    rw [ih _ _ _ hnext]
    rfl

end Reading

/-- A part of a group that is whole: read by itself, it leaves nothing open. -/
structure Whole (part : List Char) : Prop where
  /-- No parenthesis is closed that is not open, and none is left open. -/
  balanced : openAfter 0 (symbols part) = some 0
  /-- The part does not end in a backslash that escapes nothing. -/
  escaped : (symbols part).getLast? ≠ some (.plain '\\')
  /-- There is a parenthesis open at each of its bars. -/
  bars : ∀ l r, symbols part = l ++ .plain '|' :: r → openAfter 0 l ≠ some 0

/-- The group between two positions, cut into parts as it should be. -/
structure Cut (chars : List Char) (opening close : Nat) (body : List Char)
    (parts : List (List Char)) : Prop where
  closes : chars[close]? = some ')'
  /-- The parenthesis that closes is the partner of the one that opens. -/
  partner : closeGroup 0 (symbols (chars.drop (opening + 1))) =
    some (symbols body, symbols (chars.drop (close + 1)))
  cutOut : slice chars (opening + 1) close = .ok body
  divided : split body = .ok parts
  /-- The parts are the alternatives that are read otherwise. -/
  agree : parts.map symbols = alternatives (symbols body)
  joined : ['|'].intercalate parts = body
  whole : ∀ part ∈ parts, Whole part

section Groups

variable {chars : List Char} {opening : Nat} {body rest part : List Symbol}

theorem whole_text (h : Balanced false part) (hne : ∀ b ∈ part, b ≠ .plain '\\') :
    Whole (part.flatMap Symbol.text) := by
  have hpart := symbols_text hne
  constructor
  case balanced =>
    rw [hpart]
    exact openAfter_balanced h 0
  case escaped =>
    rw [hpart]
    intro hlast
    exact hne _ (List.mem_of_getLast? hlast) rfl
  case bars =>
    rw [hpart]
    intro l r heq
    exact openAfter_ne_of_bar h heq

/-- **A group that is closed is cut into parts,** each of them whole. -/
theorem exists_cut
    (hclose : closeGroup 0 (symbols (chars.drop (opening + 1))) = some (body, rest)) :
    ∃ close, bracketAt chars (some (body, rest)) = some close ∧
      Cut chars opening close (body.flatMap Symbol.text) (texts (alternatives body)) := by
  obtain ⟨close, hfound, -, hget, hslice, hbody, hrest⟩ :=
    exists_bracketAt (append_of_closeGroup hclose)
  have hbalanced := balanced_of_closeGroup hclose
  have hpaired := paired_symbols (chars.drop (opening + 1))
  have hne : ∀ part ∈ alternatives body, ∀ b ∈ part, b ≠ .plain '\\' :=
    fun part hpart => ne_of_mem_alternatives hpaired hclose hpart
  refine ⟨close, hfound, ?_⟩
  constructor
  case closes => exact hget
  case partner => rw [hbody, hrest, hclose]
  case cutOut => exact hslice
  case divided =>
    have hsplit := split_eq (hbody.symm ▸ hbalanced)
    rwa [hbody] at hsplit
  case agree =>
    have hparts : ∀ part ∈ alternatives body, symbols (part.flatMap Symbol.text) = part :=
      fun part hpart => symbols_text (hne part hpart)
    rw [hbody, texts, List.map_map]
    exact (List.map_congr_left hparts).trans (List.map_id _)
  case joined => exact intercalate_texts body
  case whole =>
    intro w hw
    obtain ⟨part, hpart, rfl⟩ := List.mem_map.1 hw
    exact whole_text (balanced_of_mem_splitBars hbalanced hpart) (hne part hpart)

end Groups

/-- **Reading in place never goes wrong.** Take any pattern and any parenthesis that opens in it.
The scan for its partner never counts below zero, and fails to find one only where there is none. If
it finds one, then the body between the two can be cut out; the scan of the body for bars never
counts below zero either, and cuts it into parts that make it up again, each of them whole. So, with
any number of groups taken, no look at a character, no stretch and no difference is ever out of
range when a pattern is compiled in place, at any depth, and the program is that of `compile`. -/
theorem compile_exact (pattern : List Char) (taken : Nat) :
    (∀ opening, pattern[opening]? = some '(' →
      ∃ found, groupEnd pattern opening = .ok found ∧
        (found = none ↔ closeGroup 0 (symbols (pattern.drop (opening + 1))) = none) ∧
        ∀ close, found = some close → ∃ body parts, Cut pattern opening close body parts) ∧
      compile pattern taken = .ok (LineSearch.compile pattern taken) := by
  constructor
  · intro opening hopen
    refine ⟨_, groupEnd_eq hopen, ?_⟩
    cases hclose : closeGroup 0 (symbols (pattern.drop (opening + 1))) with
    | none => exact ⟨⟨fun _ => rfl, fun _ => rfl⟩, nofun⟩
    | some found =>
      obtain ⟨body, rest⟩ := found
      obtain ⟨close, hfound, hcut⟩ := exists_cut hclose
      rw [hfound]
      refine ⟨by simp, fun close' heq => ?_⟩
      cases heq
      exact ⟨_, _, hcut⟩
  · unfold compile
    rw [readFrom_eq, List.drop_zero]
    rfl

/-- An escaped parenthesis, an inner group with a bar of its own and an empty part; after the group
a parenthesis that is never closed and a lone backslash. -/
theorem compile_exact_nested :
    let pattern := "x(a\\)|(b|c)d|)?(e\\".toList
    pattern[1]? = some '(' ∧ groupEnd pattern 1 = .ok (some 13) ∧
      Cut pattern 1 13 "a\\)|(b|c)d|".toList (["a\\)", "(b|c)d", ""].map String.toList) ∧
      compile pattern 2 = .ok (LineSearch.compile pattern 2) := by
  intro pattern
  have hopen : pattern[1]? = some '(' := by decide +kernel
  have hend : groupEnd pattern 1 = .ok (some 13) := by decide +kernel
  obtain ⟨hgroups, hcompile⟩ := compile_exact pattern 2
  obtain ⟨found, hfound, -, hcut⟩ := hgroups 1 hopen
  rw [hend] at hfound
  obtain ⟨body, parts, hcut⟩ := hcut 13 (Except.ok.inj hfound).symm
  have hbody : slice pattern 2 13 = .ok "a\\)|(b|c)d|".toList := by decide +kernel
  have hparts : split "a\\)|(b|c)d|".toList =
      .ok (["a\\)", "(b|c)d", ""].map String.toList) := by decide +kernel
  obtain rfl := Except.ok.inj (hbody.symm.trans hcut.cutOut)
  obtain rfl := Except.ok.inj (hparts.symm.trans hcut.divided)
  exact ⟨hopen, hend, hcut, hcompile⟩

end InPlace

end LineSearch
