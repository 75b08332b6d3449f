import LineSearch.Pattern.Numbering
import LineSearch.Proofs.Balance
import LineSearch.Proofs.GroupTree
import LineSearch.Proofs.Members

/-!
# Writing pieces as a pattern

Pieces of the grammar can be written as a pattern, and this pattern compiles to the same pieces
again. A bracket class is written member by member, each of them escaped, so parentheses and bars
in a class mean nothing to the scanners for groups.

* `Atom.InGrammar`, `Piece.InGrammar`: the pieces that have a text of their own.
* `Atom.written`, `written`, `canonicalText`: how they are written.
* `balanced_written`: the scanners for groups go through written pieces.
* `parse_atom`, `parse_backref`, `parse_group`: one written piece is read, and then what follows.
* `numberPieces_written`: groups in the order of their numbers get these numbers again.
* `compile_canonicalText`: all pieces of the grammar are read back from their text.
-/

namespace LineSearch

variable {pieces rest : List Piece} {alternatives : List (List Piece)} {x : Atom} {q : Quantifier}
  {s : List Symbol}

/-- Atoms with a text of their own. A literal is not a sign of the syntax; what stands after a
backslash is neither a digit that refers to a group nor the letter of a named class. -/
inductive Atom.InGrammar : Atom → Prop
  | literal {c : Char} (h : c ∉ ['(', ')', '[', '\\', '.', '|', '+', '?']) : InGrammar (.literal c)
  | escaped {c : Char} (hdigit : ¬ ('1' ≤ c ∧ c ≤ '9')) (hletter : c ∉ ['s', 'd', 'w']) :
    InGrammar (.escaped c)
  | any : InGrammar .any
  | named (kind : NamedClass) : InGrammar (.named kind)
  | set (chars : CharSet) : InGrammar (.set chars)

/-- Pieces with a text of their own. A back-reference is one digit without a quantifier; a group has
a number and at least one alternative, which may be empty. -/
inductive Piece.InGrammar : Piece → Prop
  | atom {x : Atom} (hx : x.InGrammar) (q : Quantifier) : InGrammar (.atom x q)
  | backref {n : Nat} (h1 : 1 ≤ n) (h9 : n ≤ 9) : InGrammar (.backref n .one)
  | group {alternatives : List (List Piece)} (number : GroupNumber) (h : alternatives ≠ [])
    (q : Quantifier) : InGrammar (.group (some number) alternatives q)

/-- How the content of a class is written: its members one by one, each after a backslash. -/
def CharSet.written (chars : CharSet) : List Symbol :=
  (if chars.negated then [.plain '^'] else []) ++ chars.members.map .escaped

/-- How an atom is written. -/
def Atom.written : Atom → List Symbol
  | literal c => [.plain c]
  | escaped c => [.escaped c]
  | any => [.plain '.']
  | named kind => [.escaped kind.letter]
  | set chars => .plain '[' :: chars.written ++ [.plain ']']

mutual
/-- How a piece is written: the sign of its quantifier comes last. -/
def Piece.written : Piece → List Symbol
  | .atom x q => x.written ++ q.sign.map .plain
  | .backref n q => .escaped n.digitChar :: q.sign.map .plain
  | .group _ alternatives q =>
    .plain '(' :: [Symbol.plain '|'].intercalate (writtenAlternatives alternatives) ++
      .plain ')' :: q.sign.map .plain

/-- How pieces are written, one after another. -/
def written : List Piece → List Symbol
  | [] => []
  | piece :: pieces => piece.written ++ written pieces

/-- How each alternative of a group is written. -/
def writtenAlternatives : List (List Piece) → List (List Symbol)
  | [] => []
  | pieces :: alternatives => written pieces :: writtenAlternatives alternatives
end

/-- The canonical text of some pieces. -/
def canonicalText (pieces : List Piece) : List Char :=
  (written pieces).flatMap Symbol.text

theorem writtenAlternatives_eq (alternatives : List (List Piece)) :
    writtenAlternatives alternatives = alternatives.map written := by
  induction alternatives with
  | nil => rfl
  | cons part alternatives ih => rw [writtenAlternatives, ih, List.map_cons]

@[simp] theorem written_nil : written [] = [] := rfl

theorem written_atom (x : Atom) (q : Quantifier) (rest : List Piece) :
    written (.atom x q :: rest) = x.written ++ (q.sign.map .plain ++ written rest) := by
  rw [written, Piece.written, List.append_assoc]

theorem written_backref (n : Nat) (q : Quantifier) (rest : List Piece) :
    written (.backref n q :: rest) =
      .escaped n.digitChar :: (q.sign.map .plain ++ written rest) := by
  rw [written, Piece.written, List.cons_append]

theorem written_group (number : Option GroupNumber) (alternatives : List (List Piece))
    (q : Quantifier) (rest : List Piece) :
    written (.group number alternatives q :: rest) =
      .plain '(' :: ([Symbol.plain '|'].intercalate (alternatives.map written) ++
        .plain ')' :: (q.sign.map .plain ++ written rest)) := by
  rw [written, Piece.written, writtenAlternatives_eq]
  simp only [List.cons_append, List.append_assoc]

section InGrammar

variable {number : Option GroupNumber} {n : Nat}

/-- All pieces at any depth are in the grammar. -/
def InGrammar (pieces : List Piece) : Prop :=
  ∀ piece, Occurs piece pieces → piece.InGrammar

theorem inGrammar_nil : InGrammar [] := by
  intro piece h
  exact absurd h not_occurs_nil

theorem inGrammar_atom : InGrammar (.atom x q :: rest) ↔ x.InGrammar ∧ InGrammar rest := by
  constructor
  · intro h
    have hrest : InGrammar rest := fun piece hp => h piece (occurs_atom.2 (.inr hp))
    cases h _ (occurs_of_mem List.mem_cons_self) with
    | atom hx => exact ⟨hx, hrest⟩
  · rintro ⟨hx, hrest⟩ piece h
    rcases occurs_atom.1 h with rfl | h
    · exact .atom hx q
    · exact hrest piece h

theorem inGrammar_backref :
    InGrammar (.backref n q :: rest) ↔ (1 ≤ n ∧ n ≤ 9) ∧ q = .one ∧ InGrammar rest := by
  constructor
  · intro h
    have hrest : InGrammar rest := fun piece hp => h piece (occurs_backref.2 (.inr hp))
    cases h _ (occurs_of_mem List.mem_cons_self) with
    | backref h1 h9 => exact ⟨⟨h1, h9⟩, rfl, hrest⟩
  · rintro ⟨⟨h1, h9⟩, rfl, hrest⟩ piece h
    rcases occurs_backref.1 h with rfl | h
    · exact .backref h1 h9
    · exact hrest piece h

theorem inGrammar_group :
    InGrammar (.group number alternatives q :: rest) ↔
      (∃ n, number = some n) ∧ alternatives ≠ [] ∧ (∀ part ∈ alternatives, InGrammar part) ∧
        InGrammar rest := by
  constructor
  · intro h
    have hrest : InGrammar rest := fun piece hp => h piece (occurs_group.2 (.inr (.inr hp)))
    have hparts : ∀ part ∈ alternatives, InGrammar part := fun part hpart piece hp =>
      h piece (occurs_group.2 (.inr (.inl ⟨part, hpart, hp⟩)))
    cases h _ (occurs_of_mem List.mem_cons_self) with
    | group n hne => exact ⟨⟨n, rfl⟩, hne, hparts, hrest⟩
  · rintro ⟨⟨n, rfl⟩, hne, hparts, hrest⟩ piece h
    rcases occurs_group.1 h with rfl | ⟨part, hpart, h⟩ | h
    · exact .group n hne q
    · exact hparts part hpart piece h
    · exact hrest piece h

end InGrammar

section Scanners

/-- A class is written with escaped characters, after a `^` if it is negated. -/
theorem CharSet.mem_written {chars : CharSet} {a : Symbol} (h : a ∈ chars.written) :
    a = .plain '^' ∨ ∃ c, a = .escaped c := by
  rw [written, List.mem_append] at h
  rcases h with h | h
  · split at h
    · exact .inl (List.mem_singleton.1 h)
    · cases h
  · obtain ⟨c, -, rfl⟩ := List.mem_map.1 h
    exact .inr ⟨c, rfl⟩

theorem CharSet.not_mem_written (chars : CharSet) : .plain ']' ∉ chars.written := by
  intro h
  rcases mem_written h with h | ⟨c, h⟩ <;> simp at h

/-- Symbols that mean nothing to the scanners for groups and to the pairing of backslashes. -/
def Symbol.Inert (a : Symbol) : Prop :=
  a ∉ [.plain '\\', .plain '(', .plain ')', .plain '|']

theorem Atom.InGrammar.inert (hx : x.InGrammar) : ∀ a ∈ x.written, a.Inert := by
  intro a ha
  cases hx with
  | literal h =>
    rw [written, List.mem_singleton] at ha
    subst ha
    simp only [List.mem_cons, List.not_mem_nil, or_false, not_or] at h
    simp [Symbol.Inert, h]
  | escaped => simp_all [written, Symbol.Inert]
  | any => simp_all [written, Symbol.Inert]
  | named kind => simp_all [written, Symbol.Inert]
  | set chars =>
    simp only [written, List.mem_append, List.mem_cons, List.not_mem_nil, or_false] at ha
    rcases ha with (rfl | ha) | rfl
    · simp [Symbol.Inert]
    · rcases CharSet.mem_written ha with rfl | ⟨c, rfl⟩ <;> simp [Symbol.Inert]
    · simp [Symbol.Inert]

theorem Quantifier.sign_inert (q : Quantifier) : ∀ a ∈ q.sign.map Symbol.plain, a.Inert := by
  cases q <;> simp [sign, Symbol.Inert]

theorem Balanced.of_inert {bars : Bool} (h : ∀ a ∈ s, a.Inert) : Balanced bars s := by
  refine .of_forall_ne fun a ha => ?_
  have hinert := h a ha
  simp only [Symbol.Inert, List.mem_cons, List.not_mem_nil, or_false, not_or] at hinert
  exact ⟨hinert.2.1, hinert.2.2.1, hinert.2.2.2⟩

/-- **The scanners for groups go through written pieces:** all parentheses have their partners, and
bars stand between these only. -/
theorem balanced_written (h : InGrammar pieces) : Balanced false (written pieces) := by
  induction pieces using pieces_induction with
  | nil => exact .nil
  | atom x q rest ih =>
    obtain ⟨hx, hrest⟩ := inGrammar_atom.1 h
    have hsign : Balanced false (q.sign.map .plain) := .of_inert q.sign_inert
    rw [written_atom]
    exact (Balanced.of_inert hx.inert).append (hsign.append (ih hrest))
  | backref n q rest ih =>
    obtain ⟨-, -, hrest⟩ := inGrammar_backref.1 h
    have hsign : Balanced false (q.sign.map .plain) := .of_inert q.sign_inert
    have hdigit : Symbol.escaped n.digitChar ≠ .plain '|' := by simp
    rw [written_backref]
    exact .symbol (by simp) (by simp) (fun hbar => absurd hbar hdigit) (hsign.append (ih hrest))
  | group number alternatives q rest iha ih =>
    obtain ⟨-, -, hparts, hrest⟩ := inGrammar_group.1 h
    have hsign : Balanced false (q.sign.map .plain) := .of_inert q.sign_inert
    have hbody : ∀ part ∈ alternatives.map written, Balanced false part :=
      List.forall_mem_map.2 fun part hpart => iha part hpart (hparts part hpart)
    rw [written_group]
    exact .group (.intercalate hbody) (hsign.append (ih hrest))

theorem forall_mem_intercalate {α : Type} {p : α → Prop} {sep : α} {parts : List (List α)}
    (hsep : p sep) (h : ∀ part ∈ parts, ∀ a ∈ part, p a) : ∀ a ∈ [sep].intercalate parts, p a := by
  induction parts with
  | nil => simp
  | cons part parts ih =>
    have hpart := h part List.mem_cons_self
    have hparts := ih fun b hb => h b (List.mem_cons_of_mem _ hb)
    cases parts with
    | nil => simpa using hpart
    | cons part' parts =>
      simp only [List.intercalate_cons_cons, List.forall_mem_append, List.forall_mem_singleton]
      exact ⟨⟨hpart, hsep⟩, hparts⟩

/-- No backslash stands alone where pieces are written. -/
theorem written_ne_backslash (h : InGrammar pieces) : ∀ a ∈ written pieces, a ≠ .plain '\\' := by
  have hinert : ∀ {s : List Symbol}, (∀ a ∈ s, a.Inert) → ∀ a ∈ s, a ≠ .plain '\\' := by
    intro s hs a ha
    have := hs a ha
    rintro rfl
    exact this List.mem_cons_self
  induction pieces using pieces_induction with
  | nil => simp
  | atom x q rest ih =>
    obtain ⟨hx, hrest⟩ := inGrammar_atom.1 h
    rw [written_atom]
    simp only [List.forall_mem_append]
    exact ⟨hinert hx.inert, hinert q.sign_inert, ih hrest⟩
  | backref n q rest ih =>
    obtain ⟨-, -, hrest⟩ := inGrammar_backref.1 h
    rw [written_backref]
    simp only [List.forall_mem_cons, List.forall_mem_append]
    exact ⟨by simp, hinert q.sign_inert, ih hrest⟩
  | group number alternatives q rest iha ih =>
    obtain ⟨-, -, hparts, hrest⟩ := inGrammar_group.1 h
    have hbody : ∀ part ∈ alternatives.map written, ∀ a ∈ part, a ≠ Symbol.plain '\\' :=
      List.forall_mem_map.2 fun part hpart => iha part hpart (hparts part hpart)
    rw [written_group]
    simp only [List.forall_mem_cons, List.forall_mem_append]
    exact ⟨by simp, forall_mem_intercalate (by simp) hbody, by simp, hinert q.sign_inert, ih hrest⟩

/-- The symbols of the canonical text are those that were written. -/
theorem symbols_canonicalText (h : InGrammar pieces) :
    symbols (canonicalText pieces) = written pieces :=
  symbols_text (written_ne_backslash h)

end Scanners

section Reading

variable {a : Symbol} {t : List Symbol} {n : Nat}

theorem quantified_sign (f : Quantifier → Lexeme) (q : Quantifier) (hs : NoSign s) :
    quantified f (q.sign.map .plain ++ s) = (f q, s) := by
  cases q with
  | plus => rfl
  | optional => rfl
  | one =>
    cases s with
    | nil => rfl
    | cons a s =>
      have hplus : a ≠ .plain '+' := fun ha => hs.1 (congrArg some ha)
      have hoptional : a ≠ .plain '?' := fun ha => hs.2 (congrArg some ha)
      simp only [Quantifier.sign, List.map_nil, List.nil_append]
      rw [quantified]
      · exact fun rest h => hplus (List.cons.inj h).1
      · exact fun rest h => hoptional (List.cons.inj h).1

/-- A lexeme that takes its quantifier is read off the front. -/
theorem parse_quantified {f : Quantifier → Lexeme} (hs : NoSign s)
    (h : lexeme a t = quantified f (q.sign.map .plain ++ s)) :
    parse (a :: t) = (f q).piece :: parse s := by
  rw [parse_cons, h, quantified_sign f q hs]

theorem lexeme_literal {c : Char} (hgroup : c ≠ '(') (hset : c ≠ '[') (hany : c ≠ '.')
    (t : List Symbol) : lexeme (.plain c) t = quantified (.atom (.literal c)) t := by
  unfold lexeme
  split <;> simp_all

theorem lexeme_any (t : List Symbol) : lexeme (.plain '.') t = quantified (.atom .any) t := rfl

theorem lexeme_named (kind : NamedClass) (t : List Symbol) :
    lexeme (.escaped kind.letter) t = quantified (.atom (.named kind)) t := by
  cases kind <;> rfl

theorem lexeme_escaped {c : Char} (hdigit : ¬ ('1' ≤ c ∧ c ≤ '9')) (hletter : c ∉ ['s', 'd', 'w'])
    (t : List Symbol) : lexeme (.escaped c) t = quantified (.atom (.escaped c)) t := by
  simp only [List.mem_cons, List.not_mem_nil, or_false, not_or] at hletter
  obtain ⟨hspace, hdig, hword⟩ := hletter
  rw [lexeme, escape, if_neg hdigit, if_neg hspace, if_neg hdig, if_neg hword]

theorem lexeme_digitChar (h1 : 1 ≤ n) (h9 : n ≤ 9) (t : List Symbol) :
    lexeme (.escaped n.digitChar) t = (.backref n, t) := by
  have hdigits : ∀ n < 10, 1 ≤ n →
      ('1' ≤ n.digitChar ∧ n.digitChar ≤ '9') ∧ n.digitChar.toNat - '0'.toNat = n := by decide
  obtain ⟨hdigit, hval⟩ := hdigits n (by omega) h1
  rw [lexeme, escape, if_pos hdigit, hval]

theorem closeSet_append {content : List Symbol} (h : .plain ']' ∉ content) (t : List Symbol) :
    closeSet (content ++ .plain ']' :: t) = some (content, t) := by
  induction content with
  | nil => rfl
  | cons a content ih =>
    obtain ⟨ha, hcontent⟩ := not_or.1 (fun hor => h (List.mem_cons.2 hor))
    rw [List.cons_append, closeSet, ih hcontent]
    · rfl
    · exact fun h => ha h.symm

/-- Escaped characters in a class are ranges of their own. -/
theorem ofSymbols_escaped (cs : List Char) :
    CharRange.ofSymbols (cs.map .escaped) = cs.map fun c => ⟨c, c⟩ := by
  induction cs with
  | nil => rfl
  | cons c cs ih =>
    rw [List.map_cons, CharRange.ofSymbols, ih]
    · rfl
    · intro last rest h
      cases cs <;> simp at h

theorem CharSet.ofContent_written (chars : CharSet) : ofContent chars.written = chars := by
  have hruns := merge_singles chars
  rw [← ofSymbols_escaped] at hruns
  have hset : ∀ negated, chars.negated = negated →
      ofRanges negated (CharRange.ofSymbols (chars.members.map .escaped)) = chars := by
    rintro negated rfl
    simp only [ofRanges, hruns]
  unfold written
  cases hnegated : chars.negated with
  | true => exact hset true hnegated
  | false =>
    have hfront : ∀ body, chars.members.map Symbol.escaped ≠ .plain '^' :: body := by
      intro body h
      cases hmembers : chars.members <;> simp [hmembers] at h
    simp only [Bool.false_eq_true, if_false, List.nil_append]
    rw [ofContent]
    · exact hset false hnegated
    · exact hfront

theorem lexeme_set (chars : CharSet) (t : List Symbol) :
    lexeme (.plain '[') (chars.written ++ .plain ']' :: t) =
      quantified (.atom (.set chars)) t := by
  simp only [lexeme, closeSet_append chars.not_mem_written, CharSet.ofContent_written]

/-- **An atom is read back** with its quantifier, if no other sign follows. -/
theorem parse_atom (hx : x.InGrammar) (q : Quantifier) (hs : NoSign s) :
    parse (x.written ++ (q.sign.map .plain ++ s)) = .atom x q :: parse s := by
  cases hx with
  | literal h =>
    simp only [List.mem_cons, List.not_mem_nil, or_false, not_or] at h
    exact parse_quantified hs (lexeme_literal h.1 h.2.2.1 h.2.2.2.2.1 _)
  | escaped hdigit hletter => exact parse_quantified hs (lexeme_escaped hdigit hletter _)
  | any => exact parse_quantified hs (lexeme_any _)
  | named kind => exact parse_quantified hs (lexeme_named kind _)
  | set chars =>
    have happend : (Atom.set chars).written ++ (q.sign.map .plain ++ s) =
        .plain '[' :: (chars.written ++ .plain ']' :: (q.sign.map .plain ++ s)) := by
      simp [Atom.written]
    rw [happend]
    exact parse_quantified hs (lexeme_set chars _)

/-- **A back-reference is read back,** whatever follows. -/
theorem parse_backref (h1 : 1 ≤ n) (h9 : n ≤ 9) (s : List Symbol) :
    parse (.escaped n.digitChar :: s) = .backref n .one :: parse s := by
  rw [parse_cons, lexeme_digitChar h1 h9]
  rfl

/-- **A group is read back** alternative by alternative. -/
theorem parse_group (hne : alternatives ≠ [])
    (hparts : ∀ part ∈ alternatives, Balanced false (written part)) (q : Quantifier)
    (hs : NoSign s) :
    parse (.plain '(' :: ([Symbol.plain '|'].intercalate (alternatives.map written) ++
        .plain ')' :: (q.sign.map .plain ++ s))) =
      .group none (alternatives.map fun part => parse (written part)) q :: parse s := by
  have hbalanced : ∀ part ∈ alternatives.map written, Balanced false part :=
    List.forall_mem_map.2 hparts
  have hlexeme : lexeme (.plain '(') ([Symbol.plain '|'].intercalate (alternatives.map written) ++
      .plain ')' :: (q.sign.map .plain ++ s)) =
      quantified (.group ([Symbol.plain '|'].intercalate (alternatives.map written)))
        (q.sign.map .plain ++ s) := by
    simp only [lexeme, closeGroup_body (Balanced.intercalate hbalanced)]
  have hsplit : splitBars 0 ([Symbol.plain '|'].intercalate (alternatives.map written)) =
      alternatives.map written :=
    splitBars_intercalate (by simpa using hne) hbalanced
  rw [parse_quantified hs hlexeme, Lexeme.piece, LineSearch.alternatives, hsplit, List.map_map]
  rfl

theorem Atom.InGrammar.noSign (hx : x.InGrammar) (s : List Symbol) : NoSign (x.written ++ s) := by
  cases hx with
  | literal h =>
    simp only [List.mem_cons, List.not_mem_nil, or_false, not_or] at h
    simp [NoSign, written, h]
  | escaped => simp [NoSign, written]
  | any => simp [NoSign, written]
  | named kind => simp [NoSign, written]
  | set chars => simp [NoSign, written]

/-- Written pieces do not begin with the sign of a quantifier. -/
theorem noSign_written (h : InGrammar pieces) : NoSign (written pieces) := by
  cases pieces with
  | nil => simp [NoSign]
  | cons piece rest =>
    cases piece with
    | atom x q =>
      rw [written_atom]
      exact (inGrammar_atom.1 h).1.noSign _
    | backref n q =>
      rw [written_backref]
      simp [NoSign]
    | group number alternatives q =>
      rw [written_group]
      simp [NoSign]

end Reading

section Numbering

variable {n taken : Nat} {ms ns : List Nat}

/-- Numbers that count on from those that are taken. -/
def CountOn (taken : Nat) (ns : List Nat) : Prop :=
  ns = List.range' (taken + 1) ns.length

theorem countOn_cons : CountOn taken (n :: ns) ↔ n = taken + 1 ∧ CountOn (taken + 1) ns := by
  rw [CountOn, List.length_cons, List.range'_succ, List.cons.injEq]
  rfl

theorem countOn_append :
    CountOn taken (ms ++ ns) ↔ CountOn taken ms ∧ CountOn (taken + ms.length) ns := by
  have hsplit : List.range' (taken + 1) (ms ++ ns).length =
      List.range' (taken + 1) ms.length ++ List.range' (taken + ms.length + 1) ns.length := by
    rw [List.length_append, ← List.range'_append_1, Nat.add_right_comm]
  rw [CountOn, hsplit]
  constructor
  · intro h
    exact List.append_inj h (List.length_range' ..).symm
  · rintro ⟨hms, hns⟩
    exact congrArg₂ _ hms hns

/-- Alternatives get their numbers again if each of them does. -/
theorem numberAlternatives_map {f : List Piece → List Piece}
    (h : ∀ part ∈ alternatives, ∀ taken, CountOn taken (numbers part) →
      Piece.numberPieces taken (f part) = (part, taken + (numbers part).length))
    (hnumbers : CountOn taken (alternatives.flatMap numbers)) :
    Piece.numberAlternatives taken (alternatives.map f) =
      (alternatives, taken + (alternatives.flatMap numbers).length) := by
  induction alternatives generalizing taken with
  | nil => rfl
  | cons part alternatives ih =>
    rw [List.flatMap_cons, countOn_append] at hnumbers
    have hpart := h part List.mem_cons_self taken hnumbers.1
    have hparts := ih (fun p hp => h p (List.mem_cons_of_mem _ hp)) hnumbers.2
    rw [List.map_cons, Piece.numberAlternatives_cons, hpart]
    simp only [hparts, List.flatMap_cons, List.length_append, Nat.add_assoc]

/-- **Written pieces are read back,** and their groups get the numbers that they had. -/
theorem numberPieces_written (h : InGrammar pieces) (hnumbers : CountOn taken (numbers pieces)) :
    Piece.numberPieces taken (parse (written pieces)) =
      (pieces, taken + (numbers pieces).length) := by
  induction pieces using pieces_induction generalizing taken with
  | nil =>
    rw [written_nil, parse_nil]
    rfl
  | atom x q rest ih =>
    obtain ⟨hx, hrest⟩ := inGrammar_atom.1 h
    have hafter := ih hrest hnumbers
    rw [written_atom, parse_atom hx q (noSign_written hrest), Piece.numberPieces_atom, hafter]
    rfl
  | backref n q rest ih =>
    obtain ⟨⟨h1, h9⟩, rfl, hrest⟩ := inGrammar_backref.1 h
    have hafter := ih hrest hnumbers
    have hsign : written (.backref n .one :: rest) = .escaped n.digitChar :: written rest := by
      rw [written_backref]
      rfl
    rw [hsign, parse_backref h1 h9, Piece.numberPieces_backref, hafter]
    rfl
  | group number alternatives q rest iha ih =>
    obtain ⟨⟨n, rfl⟩, hne, hparts, hrest⟩ := inGrammar_group.1 h
    have hnumbers' : numbers (.group (some n) alternatives q :: rest) =
        n.val :: (alternatives.flatMap numbers ++ numbers rest) := by
      rw [numbers_cons, numbers_group]
      rfl
    -- the group takes the next number; its alternatives count on from there, then what follows
    rw [hnumbers', countOn_cons, countOn_append] at hnumbers
    obtain ⟨hn, hinner, houter⟩ := hnumbers
    obtain rfl : n = .next taken := GroupNumber.ext hn
    have hbalanced : ∀ part ∈ alternatives, Balanced false (written part) :=
      fun part hpart => balanced_written (hparts part hpart)
    have hinside := numberAlternatives_map
      (fun part hpart taken => iha part hpart (hparts part hpart)) hinner
    have hafter := ih hrest houter
    rw [written_group, parse_group hne hbalanced q (noSign_written hrest),
      Piece.numberPieces_group]
    simp only [hinside, hafter, hnumbers', List.length_cons, List.length_append]
    congr 1
    omega

end Numbering

/-- **All pieces of the grammar are read back from their text.** Whatever numbers are taken, the
pattern of some pieces whose groups count on from there compiles to the same pieces, and the last
number in use has grown by the number of groups. Classes are among the pieces with any characters
in increasing order, negated or not. -/
theorem compile_canonicalText :
    (∀ (negated : Bool) (cs : List Char), cs.Pairwise (· < ·) →
        ∃ chars : CharSet, chars.negated = negated ∧ chars.members = cs) ∧
      ∀ (pieces : List Piece) (taken : Nat), InGrammar pieces → CountOn taken (numbers pieces) →
        compile (canonicalText pieces) taken = ⟨pieces, taken + (numbers pieces).length⟩ := by
  refine ⟨fun negated cs h => CharSet.exists_members negated h, ?_⟩
  intro pieces taken h hnumbers
  have hread := numberPieces_written h hnumbers
  rw [compile, symbols_canonicalText h, hread]

/-- Parentheses and bars in a class, an empty alternative and a nested group, after two groups. -/
theorem compile_canonicalText_nested :
    let chars := CharSet.ofContent (symbols "^\\(\\)\\]\\|é".toList)
    let pieces : List Piece :=
      [.group (some 3)
        [[.atom (.set chars) .plus, .backref 1 .one],
          [],
          [.group (some 4) [[.atom (.escaped ')') .optional], [.atom .any .one]] .optional]] .plus,
        .atom (.literal '$') .optional]
    InGrammar pieces ∧ CountOn 2 (numbers pieces) ∧
      canonicalText pieces = "([^\\(\\)\\]\\|\\é]+\\1||(\\)?|.)?)+$?".toList ∧
      compile (canonicalText pieces) 2 = ⟨pieces, 4⟩ ∧
      ['(', ')', 'é'].Pairwise (· < ·) ∧
      ∃ chars : CharSet, chars.negated = false ∧ chars.members = ['(', ')', 'é'] := by
  intro chars pieces
  have hset : (Atom.set chars).InGrammar := .set chars
  have hescaped : (Atom.escaped ')').InGrammar := .escaped (by decide) (by decide)
  have hliteral : (Atom.literal '$').InGrammar := .literal (by decide)
  have hpieces : InGrammar pieces := by
    simp [pieces, inGrammar_nil, inGrammar_atom, inGrammar_backref, inGrammar_group, hset, hescaped,
      hliteral, Atom.InGrammar.any]
  have hnumbers : CountOn 2 (numbers pieces) := rfl
  have hcs : ['(', ')', 'é'].Pairwise (· < ·) := by decide
  refine ⟨hpieces, hnumbers, ?_, compile_canonicalText.2 pieces 2 hpieces hnumbers, hcs,
    compile_canonicalText.1 false _ hcs⟩
  decide +kernel

end LineSearch
