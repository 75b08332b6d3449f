import LineSearch.Proofs.CanonicalText
import LineSearch.Proofs.Search
import LineSearch.Proofs.Slice

/-!
# Searching for a text

A quoted text is a pattern that stands for this text: a backslash comes before each character that
could mean something else.

* `quote`: the pattern; `quoted`: its pieces, one atom for each character.
* `compile_quoted`: the pattern compiles to these pieces.
* `matchPieces_quoted`: they match the text, and nothing else.
* `isMatch_iff_split`: so a line matches, with or without anchors, if the text stands in it between
  what the anchors leave room for.
* `isMatch_quote`: a search for a quoted text is plain string search.
-/

namespace LineSearch

variable {s : Subject} {text ahead : List Char} {p : Nat} {t : Captures}

/-- The characters with a meaning of their own somewhere in a pattern. -/
def signs : List Char :=
  ['(', ')', '[', ']', '\\', '.', '|', '+', '?', '^', '$']

/-- A character as it is quoted. -/
def quoteChar (c : Char) : List Char :=
  if c ∈ signs then ['\\', c] else [c]

/-- The pattern that stands for a text. -/
def quote (text : String) : String :=
  .ofList (text.toList.flatMap quoteChar)

/-- The atom that a quoted character makes. -/
def quotedAtom (c : Char) : Atom :=
  if c ∈ signs then .escaped c else .literal c

/-- The pieces that a quoted text makes. -/
def quoted (text : List Char) : List Piece :=
  text.map fun c => .atom (quotedAtom c) .one

section Reading

theorem inGrammar_quotedAtom (c : Char) : (quotedAtom c).InGrammar := by
  unfold quotedAtom
  by_cases hc : c ∈ signs
  · -- no sign is a digit or the letter of a named class
    have hsigns : ∀ c ∈ signs, ¬ ('1' ≤ c ∧ c ≤ '9') ∧ c ∉ ['s', 'd', 'w'] := by
      simp [signs]
    obtain ⟨hdigit, hletter⟩ := hsigns c hc
    rw [if_pos hc]
    exact .escaped hdigit hletter
  · have hsub : ['(', ')', '[', '\\', '.', '|', '+', '?'] ⊆ signs := by decide
    rw [if_neg hc]
    exact .literal fun h => hc (hsub h)

theorem inGrammar_quoted (text : List Char) : InGrammar (quoted text) := by
  induction text with
  | nil => exact inGrammar_nil
  | cons c text ih => exact inGrammar_atom.2 ⟨inGrammar_quotedAtom c, ih⟩

theorem written_quotedAtom (c : Char) :
    (quotedAtom c).written.flatMap Symbol.text = quoteChar c := by
  unfold quotedAtom quoteChar
  by_cases hc : c ∈ signs
  · rw [if_pos hc, if_pos hc]
    rfl
  · rw [if_neg hc, if_neg hc]
    rfl

/-- A quoted text is the text of its pieces. -/
theorem canonicalText_quoted (text : List Char) :
    canonicalText (quoted text) = text.flatMap quoteChar := by
  unfold canonicalText
  induction text with
  | nil => rfl
  | cons c text ih =>
    have hcons : written (quoted (c :: text)) = (quotedAtom c).written ++ written (quoted text) :=
      written_atom (quotedAtom c) .one (quoted text)
    rw [hcons, List.flatMap_append, List.flatMap_cons, ih, written_quotedAtom]

theorem numbers_quoted (text : List Char) : numbers (quoted text) = [] := by
  induction text with
  | nil => rfl
  | cons c text ih => exact ih

/-- **A quoted text compiles to its pieces,** one for each character. -/
theorem compile_quoted (text : List Char) (taken : Nat) :
    compile (text.flatMap quoteChar) taken = ⟨quoted text, taken⟩ := by
  have hnumbers : CountOn taken (numbers (quoted text)) := by
    rw [numbers_quoted]
    rfl
  have hread := numberPieces_written (inGrammar_quoted text) hnumbers
  rw [numbers_quoted] at hread
  rw [← canonicalText_quoted, compile, symbols_canonicalText (inGrammar_quoted text), hread]
  rfl

end Reading

section Anchors

theorem quoteChar_head? (c : Char) : (quoteChar c).head? ≠ some '^' := by
  unfold quoteChar
  by_cases hc : c ∈ signs
  · have hslash : '\\' ≠ '^' := by decide
    rw [if_pos hc]
    exact fun h => hslash (Option.some.inj h)
  · have hne : c ≠ '^' := fun h => hc (h ▸ by decide)
    rw [if_neg hc]
    exact fun h => hne (Option.some.inj h)

/-- A quoted text never begins with the start anchor. -/
theorem flatMap_quoteChar_head? (text : List Char) :
    (text.flatMap quoteChar).head? ≠ some '^' := by
  cases text with
  | nil => simp
  | cons c text =>
    have hne : quoteChar c ≠ [] := by
      unfold quoteChar
      split <;> simp
    rw [List.flatMap_cons, List.head?_append_of_ne_nil _ hne]
    exact quoteChar_head? c

theorem quoteChar_getLast? (c : Char) : (quoteChar c).getLast? = some c := by
  unfold quoteChar
  split <;> rfl

/-- A quoted text ends with the last character of the text. -/
theorem flatMap_quoteChar_getLast? (text : List Char) :
    (text.flatMap quoteChar).getLast? = text.getLast? := by
  rcases List.eq_nil_or_concat text with rfl | ⟨text, c, rfl⟩
  · rfl
  · simp [List.getLast?_append, quoteChar_getLast?]

/-- Anchors that are put on a body are taken off it again, if the body does not look as if it had
more of them. -/
theorem Anchored.ofPattern_text {a : Anchored}
    (hstart : a.atStart = false → a.body.head? ≠ some '^')
    (hend : a.atEnd = false → a.body.getLast? ≠ some '$') : ofPattern a.text = a := by
  obtain ⟨body, atStart, atEnd⟩ := a
  simp only at hstart hend
  have hdrop : dropDollar (body ++ if atEnd then ['$'] else []) atStart = ⟨body, atStart, atEnd⟩ := by
    unfold dropDollar
    cases atEnd with
    | true => simp
    | false => simp [hend rfl]
  cases atStart with
  | true =>
    have htext : text ⟨body, true, atEnd⟩ = '^' :: (body ++ if atEnd then ['$'] else []) := by
      simp [text]
    rw [htext, ofPattern, hdrop]
  | false =>
    have htext : text ⟨body, false, atEnd⟩ = body ++ if atEnd then ['$'] else [] := by
      simp [text]
    rw [htext, ofPattern, hdrop]
    -- the text does not begin with `^`, whether its first character is one of the body or the `$`
    rintro rest hrest
    cases body with
    | nil => cases atEnd <;> simp at hrest
    | cons c body =>
      have hc : c = '^' := (List.cons.inj hrest).1
      exact hstart rfl (congrArg some hc)

end Anchors

section Matching

theorem accepts_quotedAtom (c d : Char) : (quotedAtom c).accepts d = (d == c) := by
  unfold quotedAtom
  split <;> rfl

/-- A quoted character stops after this character. -/
theorem stops_quotedAtom (c d : Char) (p : Nat) (ahead : List Char) :
    (quotedAtom c).stops .one p (d :: ahead) = if d = c then [p + d.utf8Size] else [] := by
  unfold Atom.stops
  by_cases hdc : d = c
  · simp [accepts_quotedAtom, hdc, Text.ends]
  · simp [accepts_quotedAtom, hdc, Text.ends]

/-- **The pieces of a quoted text match this text,** if it lies ahead, and nothing else. -/
theorem matchPieces_quoted (h : s.ahead p = some ahead) :
    matchPieces s (quoted text) p t =
      if text <+: ahead then .matched (p + Text.size text) t else .failed := by
  induction text generalizing p ahead with
  | nil =>
    rw [if_pos List.nil_prefix]
    rfl
  | cons c text ih =>
    have hcons : matchPieces s (quoted (c :: text)) p t =
        matchAtom s (quotedAtom c) .one p t (matchPieces s (quoted text)) := rfl
    rw [hcons, matchAtom, h]
    cases ahead with
    | nil =>
      rw [if_neg (by simp)]
      rfl
    | cons d ahead =>
      simp only [stops_quotedAtom, List.cons_prefix_cons]
      by_cases hdc : d = c
      · subst hdc
        have hrest := ih (Subject.ahead_add_utf8Size h)
        simp only [if_true, tryEach_cons, tryEach_nil, hrest, true_and, Text.size_cons,
          Nat.add_assoc]
        split <;> rfl
      · have hcd : ¬ (c = d ∧ text <+: ahead) := fun hand => hdc hand.1.symm
        rw [if_neg hdc, if_neg hcd]
        rfl

/-- **A line matches a quoted text** with some anchors if the text stands in it, with nothing before
it for `^` and nothing after it for `$`. Without `$` the text may not end with this sign: the
backslash before it would not keep it from being an anchor. -/
theorem isMatch_iff_split {line pattern : String} {atStart atEnd : Bool}
    (hpattern : pattern.toList = Anchored.text ⟨text.flatMap quoteChar, atStart, atEnd⟩)
    (hdollar : atEnd = false → text.getLast? ≠ some '$') :
    isMatch line pattern = true ↔
      ∃ l r, line.toList = l ++ text ++ r ∧ (atStart = true → l = []) ∧ (atEnd = true → r = []) := by
  have hend : atEnd = false → (text.flatMap quoteChar).getLast? ≠ some '$' := by
    rw [flatMap_quoteChar_getLast?]
    exact hdollar
  have hanchors : Anchored.ofPattern pattern.toList = ⟨text.flatMap quoteChar, atStart, atEnd⟩ := by
    rw [hpattern]
    exact Anchored.ofPattern_text (fun _ => flatMap_quoteChar_head? text) hend
  have hregex : Regex.ofPattern pattern = ⟨⟨quoted text, 0⟩, atStart, atEnd⟩ := by
    rw [Regex.ofPattern, hanchors]
    simp only [compile_quoted]
  -- at the boundary after `l` the search decides whether the text lies ahead
  have hat : ∀ l ahead, line.toList = l ++ ahead →
      (Regex.ofPattern pattern).matchAt (.ofString line) (Text.size l) =
        if text <+: ahead then .matched (Text.size l + Text.size text) .empty else .failed := by
    intro l ahead hline
    have hahead : (Subject.ofString line).ahead (Text.size l) = some ahead := by
      rw [Subject.ahead_eq, Text.suffixAt_eq_some_iff]
      exact ⟨l, hline, rfl⟩
    rw [hregex]
    exact matchPieces_quoted hahead
  rw [isMatch_iff]
  simp only [← Regex.startAnchored_iff, ← Regex.endAnchored_iff, hregex, Subject.starts,
    Text.mem_boundaries_iff, Subject.text_ofString, Subject.size_eq]
  rw [hregex] at hat
  constructor
  · rintro ⟨start, ⟨l, ahead, hline, rfl⟩, h0, stop, u, hmatch, hstop⟩
    rw [hat l ahead hline] at hmatch
    split at hmatch
    case isFalse => cases hmatch
    case isTrue hprefix =>
      obtain ⟨r, rfl⟩ := hprefix
      cases hmatch
      refine ⟨l, r, by rw [hline, List.append_assoc], ?_, ?_⟩
      · intro hs
        exact Text.eq_nil_of_size_eq_zero (h0 hs)
      · intro he
        have hsize := hstop he
        rw [hline, Text.size_append, Text.size_append] at hsize
        exact Text.eq_nil_of_size_eq_zero (by omega)
  · rintro ⟨l, r, hline, hl, hr⟩
    rw [List.append_assoc] at hline
    refine ⟨Text.size l, ⟨l, text ++ r, hline, rfl⟩, ?_, Text.size l + Text.size text, .empty, ?_, ?_⟩
    · intro hs
      rw [hl hs]
      rfl
    · rw [hat l _ hline, if_pos (List.prefix_append text r)]
    · intro he
      rw [hline, hr he, List.append_nil, Text.size_append]

end Matching

/-- **A search for a quoted text is plain string search.** With both anchors a line matches if it is
the text, and with `$` alone if it ends with the text. If the text does not end with `$`, a line
matches without anchors if it contains the text, and with `^` alone if it begins with the text. -/
theorem isMatch_quote (text line : String) :
    (isMatch line ("^" ++ quote text ++ "$") = true ↔ line = text) ∧
      (isMatch line (quote text ++ "$") = true ↔ text.toList <:+ line.toList) ∧
      (text.toList.getLast? ≠ some '$' →
        (isMatch line (quote text) = true ↔ text.toList <:+: line.toList) ∧
        (isMatch line ("^" ++ quote text) = true ↔ text.toList <+: line.toList)) := by
  have hquote : (quote text).toList = text.toList.flatMap quoteChar := String.toList_ofList
  refine ⟨?_, ?_, fun hdollar => ⟨?_, ?_⟩⟩
  · have hpattern : ("^" ++ quote text ++ "$").toList =
        Anchored.text ⟨text.toList.flatMap quoteChar, true, true⟩ := by
      simp [Anchored.text, hquote]
    rw [isMatch_iff_split hpattern (by simp)]
    constructor
    · rintro ⟨l, r, hline, hl, hr⟩
      rw [hl rfl, hr rfl, List.nil_append, List.append_nil] at hline
      exact String.toList_inj.1 hline
    · rintro rfl
      exact ⟨[], [], by simp, fun _ => rfl, fun _ => rfl⟩
  · have hpattern : (quote text ++ "$").toList =
        Anchored.text ⟨text.toList.flatMap quoteChar, false, true⟩ := by
      simp [Anchored.text, hquote]
    rw [isMatch_iff_split hpattern (by simp)]
    constructor
    · rintro ⟨l, r, hline, -, hr⟩
      rw [hr rfl, List.append_nil] at hline
      exact ⟨l, hline.symm⟩
    · rintro ⟨l, hline⟩
      exact ⟨l, [], by simp [hline], by simp, fun _ => rfl⟩
  · have hpattern : (quote text).toList =
        Anchored.text ⟨text.toList.flatMap quoteChar, false, false⟩ := by
      simp [Anchored.text, hquote]
    rw [isMatch_iff_split hpattern fun _ => hdollar]
    constructor
    · rintro ⟨l, r, hline, -, -⟩
      exact ⟨l, r, hline.symm⟩
    · rintro ⟨l, r, hline⟩
      exact ⟨l, r, hline.symm, by simp, by simp⟩
  · have hpattern : ("^" ++ quote text).toList =
        Anchored.text ⟨text.toList.flatMap quoteChar, true, false⟩ := by
      simp [Anchored.text, hquote]
    rw [isMatch_iff_split hpattern fun _ => hdollar]
    constructor
    · rintro ⟨l, r, hline, hl, -⟩
      rw [hl rfl, List.nil_append] at hline
      exact ⟨r, hline.symm⟩
    · rintro ⟨r, hline⟩
      exact ⟨[], r, by simp [hline], fun _ => rfl, by simp⟩

/-- A text of signs and characters of several bytes, found in a line and at its front. -/
theorem isMatch_quote_signs :
    "$(é+)^".toList.getLast? ≠ some '$' ∧
      quote "$(é+)^" = "\\$\\(é\\+\\)\\^" ∧
      isMatch "ü$(é+)^)" (quote "$(é+)^") = true ∧
      isMatch "$(é+)^)" ("^" ++ quote "$(é+)^") = true := by
  have hdollar : "$(é+)^".toList.getLast? ≠ some '$' := by decide
  have hinfix : "$(é+)^".toList <:+: "ü$(é+)^)".toList := ⟨['ü'], [')'], rfl⟩
  have hprefix : "$(é+)^".toList <+: "$(é+)^)".toList := ⟨[')'], rfl⟩
  exact ⟨hdollar, by decide, ((isMatch_quote _ _).2.2 hdollar).1.2 hinfix,
    ((isMatch_quote _ _).2.2 hdollar).2.2 hprefix⟩

-- a final `$` is an anchor even when it is quoted, and its backslash stands for itself
example : isMatch "$" (quote "$") = false ∧ isMatch "a\\" (quote "$") = true := by decide +kernel

end LineSearch
