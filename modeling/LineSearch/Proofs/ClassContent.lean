import LineSearch.Proofs.Concatenation

/-!
# What a bracket class accepts

The content of a class is read character by character, from left to right, as items: a member of
the class, or two members with a `-` between them.

* `Member`, `Items`, `ReadsClass`: how a content is read, as rules on its characters.
* `Items.eq_ofSymbols`: there is one way to read it, and it gives the ranges of the class.
* `bisect`: looking a character up by halving; `bisect_iff`: it finds what is there, since the
  members of a class are in order.
* `parse_class`: a content between brackets makes up one atom.
* `classContent_accepts`: what this atom accepts.
-/

namespace LineSearch

variable {content cs rest after : List Char} {c d : Char} {items : List CharRange}
  {negated : Bool}

/-- The member at the front of a content, the character that it stands for, and what follows. -/
inductive Member : List Char → Char → List Char → Prop
  | escaped {c : Char} {rest : List Char} : Member ('\\' :: c :: rest) c rest
  /-- A backslash is a member only where it has nothing to escape. -/
  | single {c : Char} {rest : List Char} (h : c = '\\' → rest = []) : Member (c :: rest) c rest

/-- The items of a content, from left to right. -/
inductive Items : List Char → List CharRange → Prop
  | nil : Items [] []
  /-- A member, an unescaped `-` and one more member. -/
  | range {cs after rest : List Char} {first last : Char} {items : List CharRange}
    (hfirst : Member cs first ('-' :: after)) (hlast : Member after last rest)
    (hrest : Items rest items) : Items cs (⟨first, last⟩ :: items)
  /-- Any other member. -/
  | alone {cs rest : List Char} {c : Char} {items : List CharRange} (hc : Member cs c rest)
    (halone : ∀ d ds, rest ≠ '-' :: d :: ds) (hrest : Items rest items) :
    Items cs (⟨c, c⟩ :: items)

/-- How a content is read: whether it is negated, and its items. -/
inductive ReadsClass : List Char → Bool → List CharRange → Prop
  | negated {body : List Char} {items : List CharRange} (h : Items body items) :
    ReadsClass ('^' :: body) true items
  | plain {content : List Char} {items : List CharRange} (hcaret : content.head? ≠ some '^')
    (h : Items content items) : ReadsClass content false items

/-- A character lies in one of some items, between its ends. -/
def LiesIn (items : List CharRange) (c : Char) : Prop :=
  ∃ item ∈ items, item.first ≤ c ∧ c ≤ item.last

section Reading

theorem Member.symbols (h : Member cs c rest) :
    ∃ a : Symbol, a.char = c ∧ symbols cs = a :: LineSearch.symbols rest := by
  cases h with
  | escaped => exact ⟨.escaped c, rfl, rfl⟩
  | single h =>
    refine ⟨.plain c, rfl, ?_⟩
    by_cases hc : c = '\\'
    · rw [hc, h hc]
      rfl
    · exact symbols_plain hc rest

theorem Member.length_lt (h : Member cs c rest) : rest.length < cs.length := by
  cases h with
  | escaped =>
    simp only [List.length_cons]
    omega
  | single h =>
    rw [List.length_cons]
    omega

theorem exists_member (h : cs ≠ []) : ∃ c rest, Member cs c rest := by
  cases cs with
  | nil => exact absurd rfl h
  | cons c rest =>
    by_cases hc : c = '\\'
    · subst hc
      cases rest with
      | nil => exact ⟨'\\', [], .single fun _ => rfl⟩
      | cons d rest => exact ⟨d, rest, .escaped⟩
    · exact ⟨c, rest, .single fun h => absurd h hc⟩

/-- Every content can be read. -/
theorem exists_items (cs : List Char) : ∃ items, Items cs items := by
  induction hn : cs.length using Nat.strongRecOn generalizing cs with
  | _ n ih =>
    by_cases hcs : cs = []
    · rw [hcs]
      exact ⟨[], .nil⟩
    · obtain ⟨c, rest, hc⟩ := exists_member hcs
      have hlt := hc.length_lt
      by_cases hdash : ∃ d ds, rest = '-' :: d :: ds
      · obtain ⟨d, ds, rfl⟩ := hdash
        obtain ⟨last, rest, hlast⟩ := exists_member (List.cons_ne_nil d ds)
        have hlt' := hlast.length_lt
        rw [List.length_cons] at hlt
        obtain ⟨items, hitems⟩ := ih rest.length (by omega) rest rfl
        exact ⟨_, .range hc hlast hitems⟩
      · have halone : ∀ d ds, rest ≠ '-' :: d :: ds := fun d ds h => hdash ⟨d, ds, h⟩
        obtain ⟨items, hitems⟩ := ih rest.length (by omega) rest rfl
        exact ⟨_, .alone hc halone hitems⟩

/-- **There is one way to read a content:** its items are the ranges of its symbols. -/
theorem Items.eq_ofSymbols (h : Items cs items) : items = CharRange.ofSymbols (symbols cs) := by
  induction h with
  | nil => rfl
  | range hfirst hlast _ ih =>
    obtain ⟨a, rfl, ha⟩ := hfirst.symbols
    obtain ⟨b, rfl, hb⟩ := hlast.symbols
    rw [ha, symbols_plain (by decide), hb, CharRange.ofSymbols, ih]
  | @alone cs rest c items hc halone _ ih =>
    obtain ⟨a, rfl, ha⟩ := hc.symbols
    rw [ha, CharRange.ofSymbols, ih]
    -- a `-` with something after it would not leave the member alone
    intro last later h
    have htext := text_symbols rest
    rw [h] at htext
    cases last with
    | plain d => exact halone d _ htext.symm
    | escaped d => exact halone '\\' _ htext.symm

theorem exists_readsClass (content : List Char) :
    ∃ negated items, ReadsClass content negated items := by
  by_cases hcaret : content.head? = some '^'
  · obtain ⟨body, rfl⟩ := List.head?_eq_some_iff.1 hcaret
    obtain ⟨items, h⟩ := exists_items body
    exact ⟨true, items, .negated h⟩
  · obtain ⟨items, h⟩ := exists_items content
    exact ⟨false, items, .plain hcaret h⟩

/-- Any two readings of a content are the same. -/
theorem ReadsClass.unique {negated' : Bool} {items' : List CharRange}
    (h : ReadsClass content negated items) (h' : ReadsClass content negated' items') :
    negated' = negated ∧ items' = items := by
  cases h with
  | negated h =>
    cases h' with
    | negated h' => exact ⟨rfl, h'.eq_ofSymbols.trans h.eq_ofSymbols.symm⟩
    | plain hcaret => exact absurd rfl hcaret
  | plain hcaret h =>
    cases h' with
    | negated => exact absurd rfl hcaret
    | plain _ h' => exact ⟨rfl, h'.eq_ofSymbols.trans h.eq_ofSymbols.symm⟩

/-- **The class of a content** is made up of its items. -/
theorem ReadsClass.ofContent (h : ReadsClass content negated items) :
    CharSet.ofContent (symbols content) = CharSet.ofRanges negated items := by
  cases h with
  | negated h =>
    rw [h.eq_ofSymbols, symbols_plain (by decide)]
    rfl
  | plain hcaret h =>
    rw [h.eq_ofSymbols, CharSet.ofContent]
    intro body hbody
    apply hcaret
    have htext := text_symbols content
    rw [hbody] at htext
    rw [← htext]
    rfl

end Reading

section Lookup

/-- Looks a character up in a list of characters in order, by halving the list. -/
def bisect (c : Char) (cs : List Char) : Bool :=
  match _h : cs.drop (cs.length / 2) with
  | [] => false
  | d :: later =>
    if c = d then true
    else if c < d then bisect c (cs.take (cs.length / 2))
    else bisect c later
termination_by cs.length
decreasing_by
  all_goals
    have hlength := congrArg List.length _h
    rw [List.length_drop, List.length_cons] at hlength
  · rw [List.length_take]
    omega
  · omega

/-- **Halving finds what is there:** in a list in order, a character is found exactly if the list
holds it. -/
theorem bisect_iff (h : cs.Pairwise (· < ·)) : bisect c cs = true ↔ c ∈ cs := by
  fun_induction bisect c cs with
  | case1 cs hdrop =>
    have hlength := congrArg List.length hdrop
    rw [List.length_drop, List.length_nil] at hlength
    have hnil : cs = [] := List.length_eq_zero_iff.1 (by omega)
    simp [hnil]
  | case2 cs later hdrop =>
    have hmem : c ∈ cs.drop (cs.length / 2) := by
      rw [hdrop]
      exact List.mem_cons_self
    simp [List.mem_of_mem_drop hmem]
  | case3 cs d later hdrop hne hlt ih =>
    have hsplit := List.take_append_drop (cs.length / 2) cs
    rw [hdrop] at hsplit
    rw [← hsplit, List.pairwise_append] at h
    obtain ⟨htake, hlater, -⟩ := h
    have hlater' := (List.pairwise_cons.1 hlater).1
    rw [ih htake]
    constructor
    · exact List.mem_of_mem_take
    · intro hmem
      rw [← hsplit, List.mem_append, List.mem_cons] at hmem
      rcases hmem with hmem | rfl | hmem
      · exact hmem
      · exact absurd rfl hne
      · exact absurd (Char.lt_trans hlt (hlater' c hmem)) (Char.lt_irrefl c)
  | case4 cs d later hdrop hne hlt ih =>
    have hsplit := List.take_append_drop (cs.length / 2) cs
    rw [hdrop] at hsplit
    rw [← hsplit, List.pairwise_append] at h
    obtain ⟨-, hlater, hbefore⟩ := h
    rw [ih (List.pairwise_cons.1 hlater).2]
    constructor
    · intro hmem
      rw [← hsplit]
      exact List.mem_append_right _ (List.mem_cons_of_mem d hmem)
    · intro hmem
      rw [← hsplit, List.mem_append, List.mem_cons] at hmem
      rcases hmem with hmem | rfl | hmem
      · exact absurd (hbefore c hmem d List.mem_cons_self) hlt
      · exact absurd rfl hne
      · exact hmem

end Lookup

section Accepts

theorem liesIn_iff : LiesIn items c ↔ items.any (·.contains c) = true := by
  unfold LiesIn
  rw [List.any_eq_true]
  apply exists_congr
  intro item
  rw [CharRange.contains, Bool.and_eq_true, decide_eq_true_eq, decide_eq_true_eq]
  rfl

/-- The members of a class are the characters that lie in its items. -/
theorem mem_members_ofRanges (negated : Bool) (items : List CharRange) (c : Char) :
    c ∈ (CharSet.ofRanges negated items).members ↔ LiesIn items c := by
  rw [CharSet.mem_members_iff, liesIn_iff]
  show (CharSet.merge items).any (·.contains c.toNat) = true ↔ _
  rw [CharSet.any_contains_merge]

/-- A class accepts its members, or the characters that are no members if it is negated. -/
theorem accepts_eq_bisect (chars : CharSet) (c : Char) :
    (Atom.set chars).accepts c = (bisect c chars.members != chars.negated) := by
  have hfind : bisect c chars.members = chars.runs.any (·.contains c.toNat) := by
    rw [Bool.eq_iff_iff, bisect_iff chars.members_pairwise, CharSet.mem_members_iff]
  rw [hfind]
  rfl

/-- **A content between brackets makes up one atom,** if it holds no unescaped `]` and no backslash
that would escape the bracket after it. -/
theorem parse_class (hclose : .plain ']' ∉ symbols content) (hpair : .plain '\\' ∉ symbols content)
    (rest : List Char) :
    ∃ q after, parse (symbols ('[' :: content ++ ']' :: rest)) =
      .atom (.set (CharSet.ofContent (symbols content))) q :: parse after := by
  have hlast : (symbols content).getLast? ≠ some (.plain '\\') :=
    fun h => hpair (List.mem_of_getLast? h)
  have hsymbols : symbols ('[' :: content ++ ']' :: rest) =
      .plain '[' :: (symbols content ++ .plain ']' :: symbols rest) := by
    rw [List.cons_append, symbols_plain (by decide), symbols_append _ _ hlast,
      symbols_plain (by decide)]
  obtain ⟨q, after, hquantified, -⟩ :=
    quantified_taken (.atom (.set (CharSet.ofContent (symbols content)))) (symbols rest)
  refine ⟨q, after, ?_⟩
  rw [hsymbols, parse_cons]
  simp only [lexeme, closeSet_append hclose, hquantified]
  rfl

end Accepts

/-- **What a bracket class accepts.** What stands between a bracket and the first unescaped `]`
after it compiles to a class. Whatever the content, there is one way to read it: as items from left
to right, after a `^` if it begins with an unescaped one. The class accepts the characters that lie
in some item, or with `^` those that lie in none. Its members are the characters that lie in some
item, in increasing order and each of them once, and so looking them up by halving tells which
characters the class accepts. -/
theorem classContent_accepts :
    (∀ (content rest : List Char) (taken : Nat), .plain ']' ∉ symbols content →
        .plain '\\' ∉ symbols content →
        ∃ q after, (compile ('[' :: content ++ ']' :: rest) taken).pieces =
          .atom (.set (CharSet.ofContent (symbols content))) q :: after) ∧
      ∀ content : List Char,
        let chars := CharSet.ofContent (symbols content)
        ∃ negated items, ReadsClass content negated items ∧
          (∀ negated' items', ReadsClass content negated' items' →
            negated' = negated ∧ items' = items) ∧
          (∀ c, (Atom.set chars).accepts c = true ↔ ¬ (LiesIn items c ↔ negated = true)) ∧
          (∀ c, (Atom.set chars).accepts c = (bisect c chars.members != negated)) ∧
          chars.members.Pairwise (· < ·) ∧
          ∀ c, chars.members.count c = 1 ↔ LiesIn items c := by
  refine ⟨?_, ?_⟩
  · intro content rest taken hclose hpair
    obtain ⟨q, after, hparse⟩ := parse_class hclose hpair rest
    refine ⟨q, (Piece.numberPieces taken (parse after)).1, ?_⟩
    rw [compile_pieces, hparse, Piece.numberPieces_atom]
  · intro content chars
    obtain ⟨negated, items, hread⟩ := exists_readsClass content
    have hchars : chars = CharSet.ofRanges negated items := hread.ofContent
    have hnegated : chars.negated = negated := by rw [hchars]; rfl
    have hmem : ∀ c, c ∈ chars.members ↔ LiesIn items c := by
      intro c
      rw [hchars, mem_members_ofRanges]
    have hfind : ∀ c, (Atom.set chars).accepts c = (bisect c chars.members != negated) := by
      intro c
      rw [accepts_eq_bisect, hnegated]
    refine ⟨negated, items, hread, fun _ _ h => hread.unique h, ?_, hfind,
      chars.members_pairwise, ?_⟩
    · intro c
      rw [hfind, ← hmem, ← bisect_iff chars.members_pairwise]
      cases bisect c chars.members <;> cases negated <;> decide
    · intro c
      have hnodup : chars.members.Nodup := chars.members_pairwise.imp Char.ne_of_lt
      rw [hnodup.count, ← hmem]
      by_cases hc : c ∈ chars.members
      · rw [if_pos hc]
        exact iff_of_true rfl hc
      · rw [if_neg hc]
        exact iff_of_false Nat.zero_ne_one hc

/-- An escaped `^` in front negates nothing and an escaped `]` stays in the class; `é-a` is empty,
`a-\uE000` reaches over the surrogates, and the last `-` is a member. -/
theorem classContent_accepts_escapes :
    let content := ['\\', '^', '\\', ']', '-', '_', 'é', '-', 'a', 'a', '-', '\uE000', '-']
    .plain ']' ∉ symbols content ∧ .plain '\\' ∉ symbols content ∧
      (∃ q after, (compile ('[' :: content ++ ']' :: "+[".toList) 1).pieces =
        .atom (.set (CharSet.ofContent (symbols content))) q :: after) ∧
      ReadsClass content false
        [⟨'^', '^'⟩, ⟨']', '_'⟩, ⟨'é', 'a'⟩, ⟨'a', '\uE000'⟩, ⟨'-', '-'⟩] := by
  intro content
  have hclose : .plain ']' ∉ symbols content := by decide +kernel
  have hpair : .plain '\\' ∉ symbols content := by decide +kernel
  refine ⟨hclose, hpair, classContent_accepts.1 content "+[".toList 1 hclose hpair, ?_⟩
  have hlast : Items ['-'] [⟨'-', '-'⟩] := .alone (.single (by decide)) (by simp) .nil
  have hranges : Items ['\\', ']', '-', '_', 'é', '-', 'a', 'a', '-', '\uE000', '-']
      [⟨']', '_'⟩, ⟨'é', 'a'⟩, ⟨'a', '\uE000'⟩, ⟨'-', '-'⟩] :=
    .range .escaped (.single (by decide))
      (.range (.single (by decide)) (.single (by decide))
        (.range (.single (by decide)) (.single (by decide)) hlast))
  exact .plain (by decide) (.alone .escaped (by simp) hranges)

end LineSearch
