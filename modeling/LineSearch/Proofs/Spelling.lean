import Mathlib.Data.List.Forall2
import LineSearch.Proofs.GroupTree
import LineSearch.Proofs.Reading
import LineSearch.Regex

/-!
# How pieces are spelled

Each piece stands for a stretch of the pattern. The spelling of a bracket class is open, since many
contents make up the same class; all other pieces have one spelling.

* `Atom.Spells`, `Spells`: a text spells an atom or some pieces.
* `spells_parse`: a pattern spells what it is read as.
* `Spells.unique`: pieces without bracket classes have one spelling.
* `compile_spells`: compiling loses, adds and reorders nothing, and without bracket classes
  different patterns make different regexes.
-/

namespace LineSearch

variable {pieces rest : List Piece} {a : Symbol} {s l r body part : List Symbol} {v w : List Char}

/-- A text spells an atom. A bracket class may have any content that holds neither an unescaped `]`
nor a lone backslash, and that makes up this class. -/
inductive Atom.Spells : Atom → List Char → Prop
  | literal (c : Char) : Spells (.literal c) [c]
  | escaped (c : Char) : Spells (.escaped c) ['\\', c]
  | any : Spells .any ['.']
  | named (kind : NamedClass) : Spells (.named kind) ['\\', kind.letter]
  | set {chars : CharSet} {content : List Char} (hclose : .plain ']' ∉ symbols content)
    (hpair : .plain '\\' ∉ symbols content) (hc : CharSet.ofContent (symbols content) = chars) :
    Spells (.set chars) ('[' :: content ++ [']'])

/-- A text spells some pieces: the texts of the pieces, one after another, each with the sign of its
quantifier. The alternatives of a group stand between parentheses, with bars between them. -/
inductive Spells : List Piece → List Char → Prop
  | nil : Spells [] []
  | atom {x : Atom} {q : Quantifier} {rest : List Piece} {w v : List Char} (hx : x.Spells w)
    (hr : Spells rest v) : Spells (.atom x q :: rest) (w ++ q.sign ++ v)
  | backref {n : Nat} {q : Quantifier} {rest : List Piece} {v : List Char} (hr : Spells rest v) :
    Spells (.backref n q :: rest) ('\\' :: (toString n).toList ++ q.sign ++ v)
  | group {number : Option GroupNumber} {alternatives : List (List Piece)} {q : Quantifier}
    {rest : List Piece} {texts : List (List Char)} {v : List Char}
    (ha : List.Forall₂ Spells alternatives texts) (hr : Spells rest v) :
    Spells (.group number alternatives q :: rest)
      ('(' :: ['|'].intercalate texts ++ ')' :: q.sign ++ v)

theorem flatMap_text_sign (q : Quantifier) :
    (q.sign.map Symbol.plain).flatMap Symbol.text = q.sign := by
  cases q <;> rfl

theorem flatMap_intercalate {α β : Type} (f : α → List β) (sep : α) (parts : List (List α)) :
    ([sep].intercalate parts).flatMap f =
      (f sep).intercalate (parts.map fun part => part.flatMap f) := by
  induction parts with
  | nil => rfl
  | cons part parts ih =>
    cases parts with
    | nil => simp
    | cons part' parts => simp [ih]

theorem mem_intercalate_of_mem {α : Type} {sep part : List α} {parts : List (List α)} {a : α}
    (hpart : part ∈ parts) (ha : a ∈ part) : a ∈ sep.intercalate parts := by
  induction parts with
  | nil => cases hpart
  | cons b parts ih =>
    cases parts with
    | nil =>
      rw [List.mem_singleton.1 hpart] at ha
      simpa using ha
    | cons b' parts =>
      rcases List.mem_cons.1 hpart with rfl | hpart
      · simp [ha]
      · simp [ih hpart]

/-- A back-reference is spelled with one digit. -/
theorem toString_digit {c : Char} (h : '1' ≤ c ∧ c ≤ '9') :
    (toString (c.toNat - '0'.toNat)).toList = [c] := by
  have hdigits : ∀ n < 58, 49 ≤ n → (toString (n - '0'.toNat)).toList = [Char.ofNat n] := by
    decide
  have hlo : 49 ≤ c.toNat := h.1
  have hhi : c.toNat ≤ 57 := h.2
  rw [hdigits c.toNat (by omega) hlo, Char.ofNat_toNat]

/-- An atom that is read from some symbols is spelled by their text. -/
theorem Atom.Reads.spells {x : Atom} {front : List Symbol} (h : x.Reads front)
    (hpair : Paired (front ++ r)) : x.Spells (front.flatMap Symbol.text) := by
  cases h with
  | literal c => exact .literal c
  | escaped c => exact .escaped c
  | any => exact .any
  | named kind => exact .named kind
  | @set content hclose =>
    have hne : ∀ a ∈ content, a ≠ .plain '\\' := by
      have : Paired ([.plain '['] ++ content ++ .plain ']' :: r) := by simpa using hpair
      exact this.forall_ne
    have hcontent := symbols_text hne
    have htext : (Symbol.plain '[' :: content ++ [Symbol.plain ']']).flatMap Symbol.text =
        '[' :: content.flatMap Symbol.text ++ [']'] := by
      simp [Symbol.text]
    rw [htext]
    refine .set ?_ ?_ (by rw [hcontent])
    · rw [hcontent]
      exact hclose
    · rw [hcontent]
      exact fun hmem => hne _ hmem rfl

theorem mem_of_mem_alternatives (hpart : part ∈ alternatives body) (ha : a ∈ part) : a ∈ body := by
  have hmem : a ∈ [Symbol.plain '|'].intercalate (splitBars 0 body) :=
    mem_intercalate_of_mem hpart ha
  rw [intercalate_splitBars] at hmem
  exact hmem

/-- A group is spelled by the text of its body, if the alternatives in the body are. -/
theorem spells_group
    (hparts : ∀ part ∈ alternatives body, Spells (parse part) (part.flatMap Symbol.text))
    (q : Quantifier) (hrest : Spells rest v) :
    Spells (.group none ((alternatives body).map parse) q :: rest)
      ('(' :: body.flatMap Symbol.text ++ ')' :: q.sign ++ v) := by
  have hall : List.Forall₂ Spells ((alternatives body).map parse)
      ((alternatives body).map fun part => part.flatMap Symbol.text) := by
    rw [List.forall₂_map_left_iff, List.forall₂_map_right_iff, List.forall₂_same]
    exact hparts
  have htext : body.flatMap Symbol.text =
      ['|'].intercalate ((alternatives body).map fun part => part.flatMap Symbol.text) := by
    have hjoin := intercalate_splitBars 0 body
    rw [← alternatives] at hjoin
    conv_lhs => rw [← hjoin, flatMap_intercalate]
    rfl
  rw [htext]
  exact .group hall hrest

/-- **A pattern spells what it is read as.** -/
theorem spells_parse (h : Paired s) : Spells (parse s) (s.flatMap Symbol.text) := by
  induction s using reading_induction with
  | nil =>
    rw [parse_nil]
    exact .nil
  | cons a s ih iha =>
    obtain ⟨front, hfront, heq⟩ := lexeme_reads a s
    rw [parse_cons]
    generalize (lexeme a s).1 = x at hfront iha ⊢
    generalize (lexeme a s).2 = rest at heq ih ⊢
    rw [heq] at h ⊢
    have hrest : Spells (parse rest) (rest.flatMap Symbol.text) := ih h.tail
    rw [List.flatMap_append]
    cases hfront with
    | group body q =>
      -- the alternatives hold no lone backslash, since a parenthesis follows them
      have hbody : ∀ b ∈ body, b ≠ .plain '\\' := by
        have : Paired ([.plain '('] ++ body ++ .plain ')' :: (q.sign.map .plain ++ rest)) := by
          simpa using h
        exact this.forall_ne
      have hparts : ∀ part ∈ alternatives body,
          Spells (parse part) (part.flatMap Symbol.text) := by
        intro part hpart
        have hne : ∀ b ∈ part, b ≠ .plain '\\' :=
          fun b hb => hbody b (mem_of_mem_alternatives hpart hb)
        exact iha body q rfl part hpart (paired_of_forall_ne hne)
      have hspell := spells_group hparts q hrest
      simpa [Symbol.text, flatMap_text_sign, Lexeme.piece] using hspell
    | atom hx q =>
      rw [List.flatMap_append, flatMap_text_sign]
      rw [List.append_assoc] at h
      exact .atom (hx.spells h) hrest
    | @backref c hc =>
      have hspell := Spells.backref (n := c.toNat - '0'.toNat) (q := .one) hrest
      rw [toString_digit hc] at hspell
      exact hspell
    | bare c => exact .atom (.literal c) hrest

/-- Numbering the groups does not change how pieces are spelled. -/
theorem Spells.numberPieces (h : Spells pieces w) (taken : Nat) :
    Spells (Piece.numberPieces taken pieces).1 w := by
  induction pieces using pieces_induction generalizing taken w with
  | nil => exact h
  | atom x q rest ih =>
    cases h with
    | atom hx hr => exact .atom hx (ih hr taken)
  | backref n q rest ih =>
    cases h with
    | backref hr => exact .backref (ih hr taken)
  | group number alternatives q rest iha ih =>
    cases h with
    | @group _ _ _ _ texts v ha hr =>
      have hall : ∀ taken,
          List.Forall₂ Spells (Piece.numberAlternatives taken alternatives).1 texts := by
        clear ih hr
        induction ha with
        | nil => exact fun _ => .nil
        | cons hpart hparts ihparts =>
          intro taken
          exact .cons (iha _ List.mem_cons_self hpart taken)
            (ihparts (fun b hb => iha b (List.mem_cons_of_mem _ hb)) _)
      exact .group (hall (taken + 1)) (ih hr _)

/-- **Pieces without bracket classes have one spelling.** -/
theorem Spells.unique (hfree : ∀ chars q, ¬ Occurs (.atom (.set chars) q) pieces)
    (hv : Spells pieces v) (hw : Spells pieces w) : v = w := by
  induction pieces using pieces_induction generalizing v w with
  | nil =>
    cases hv
    cases hw
    rfl
  | atom x q rest ih =>
    have hrest : ∀ chars q, ¬ Occurs (.atom (.set chars) q) rest :=
      fun chars q h => hfree chars q (occurs_atom.2 (.inr h))
    cases hv with
    | atom hx hr =>
      cases hw with
      | atom hx' hr' =>
        rw [ih hrest hr hr']
        cases hx with
        | literal c => cases hx'; rfl
        | escaped c => cases hx'; rfl
        | any => cases hx'; rfl
        | named kind => cases hx'; rfl
        | set => exact absurd (occurs_of_mem List.mem_cons_self) (hfree _ q)
  | backref n q rest ih =>
    have hrest : ∀ chars q, ¬ Occurs (.atom (.set chars) q) rest :=
      fun chars q h => hfree chars q (occurs_backref.2 (.inr h))
    cases hv with
    | backref hr =>
      cases hw with
      | backref hr' => rw [ih hrest hr hr']
  | group number alternatives q rest iha ih =>
    have hrest : ∀ chars q, ¬ Occurs (.atom (.set chars) q) rest :=
      fun chars q h => hfree chars q (occurs_group.2 (.inr (.inr h)))
    cases hv with
    | @group _ _ _ _ texts _ ha hr =>
      cases hw with
      | @group _ _ _ _ texts' _ ha' hr' =>
        have hparts : ∀ part ∈ alternatives, ∀ {v w}, Spells part v → Spells part w → v = w :=
          fun part hp => iha part hp fun chars q h => hfree chars q
            (occurs_of_part List.mem_cons_self hp h)
        have htexts : texts = texts' := by
          clear iha hfree hr hr' ih hrest
          induction ha generalizing texts' with
          | nil => cases ha'; rfl
          | cons hpart _ ihparts =>
            cases ha' with
            | cons hpart' ha' =>
              rw [hparts _ List.mem_cons_self hpart hpart',
                ihparts ha' fun b hb => hparts b (List.mem_cons_of_mem _ hb)]
        rw [htexts, ih hrest hr hr']

/-- A pattern spells the pieces that it compiles to. -/
theorem spells_compile (pattern : List Char) (taken : Nat) :
    Spells (compile pattern taken).pieces pattern := by
  have hparse := spells_parse (paired_symbols pattern)
  rw [text_symbols] at hparse
  exact hparse.numberPieces taken

/-- **Compiling loses, adds and reorders nothing.** Whatever group numbers are in use, every
pattern, malformed or not, spells the pieces that it compiles to. So where no bracket class leaves
its content open, only one pattern makes up a regex. -/
theorem compile_spells :
    (∀ (pattern : List Char) (taken : Nat), Spells (compile pattern taken).pieces pattern) ∧
      ∀ a b : String,
        (∀ chars q, ¬ Occurs (.atom (.set chars) q) (Regex.ofPattern a).program.pieces) →
        Regex.ofPattern a = Regex.ofPattern b → a = b := by
  refine ⟨spells_compile, ?_⟩
  intro a b hfree heq
  have hpieces : (Regex.ofPattern a).program.pieces = (Regex.ofPattern b).program.pieces := by
    rw [heq]
  have ha : Spells (Regex.ofPattern a).program.pieces (Anchored.ofPattern a.toList).body :=
    spells_compile _ 0
  have hb : Spells (Regex.ofPattern b).program.pieces (Anchored.ofPattern b.toList).body :=
    spells_compile _ 0
  rw [← hpieces] at hb
  -- the anchors agree, and so do the bodies between them
  have hanchored : Anchored.ofPattern a.toList = Anchored.ofPattern b.toList := by
    have hbody := ha.unique hfree hb
    have hstart : (Anchored.ofPattern a.toList).atStart = (Anchored.ofPattern b.toList).atStart :=
      congrArg Regex.startAnchored heq
    have hend : (Anchored.ofPattern a.toList).atEnd = (Anchored.ofPattern b.toList).atEnd :=
      congrArg Regex.endAnchored heq
    generalize Anchored.ofPattern a.toList = x at hbody hstart hend ⊢
    generalize Anchored.ofPattern b.toList = y at hbody hstart hend ⊢
    cases x
    cases y
    simp only at hbody hstart hend
    rw [hbody, hstart, hend]
  have htext : a.toList = b.toList := by
    rw [← Anchored.text_ofPattern a.toList, hanchored, Anchored.text_ofPattern]
  exact String.toList_inj.1 htext

/-- Anchors, a nested group, and a bracket that is never closed. -/
theorem compile_spells_unclosed :
    (∀ chars q, ¬ Occurs (.atom (.set chars) q)
      (Regex.ofPattern "^(a|\\2(b)?)+[é$").program.pieces) ∧
      Regex.ofPattern "^(a|\\2(b)?)+[é$" = Regex.ofPattern ("^(a|\\2" ++ "(b)?)+[é$") ∧
      "^(a|\\2(b)?)+[é$" = "^(a|\\2" ++ "(b)?)+[é$" := by
  have hpieces : (Regex.ofPattern "^(a|\\2(b)?)+[é$").program.pieces =
      [.group (some 1) [[.atom (.literal 'a') .one],
        [.backref 2 .one, .group (some 2) [[.atom (.literal 'b') .one]] .optional]] .plus,
        .atom (.literal '[') .one, .atom (.literal 'é') .one] := by decide +kernel
  have hfree : ∀ chars q, ¬ Occurs (.atom (.set chars) q)
      (Regex.ofPattern "^(a|\\2(b)?)+[é$").program.pieces := by
    rw [hpieces]
    simp
  have heq : Regex.ofPattern "^(a|\\2(b)?)+[é$" = Regex.ofPattern ("^(a|\\2" ++ "(b)?)+[é$") := by
    decide +kernel
  exact ⟨hfree, heq, compile_spells.2 _ _ hfree heq⟩

end LineSearch
