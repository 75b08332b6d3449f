import LineSearch.Text.Offset

/-!
# The text under search

* `Subject`: a text together with the table of what lies ahead of each of its byte offsets,
  so that a matcher looks ahead from any offset in one step.
* `ahead_eq`: the table answers what `Text.suffixAt` says.
* `slice`: the text of a span; `slice_eq_some_iff`: only a span whose ends are character
  boundaries in order has one.
-/

namespace LineSearch

/-- A stretch of a text, from one byte offset up to another. -/
structure Span where
  start : Nat
  stop : Nat
  deriving DecidableEq, Repr

/-- What lies ahead of each byte offset of a text, the size included; `none` inside a character. -/
def Text.lookahead : List Char → List (Option (List Char))
  | [] => [some []]
  | c :: cs => some (c :: cs) :: (List.replicate (c.utf8Size - 1) none ++ Text.lookahead cs)

theorem Text.length_lookahead (cs : List Char) :
    (Text.lookahead cs).length = Text.size cs + 1 := by
  induction cs with
  | nil => rfl
  | cons c cs ih =>
    have := c.utf8Size_pos
    simp [Text.lookahead, ih]
    omega

theorem Text.lookahead_getElem? (cs : List Char) (n : Nat) :
    (Text.lookahead cs)[n]?.join = Text.suffixAt cs n := by
  fun_induction Text.cut n cs with
  | case1 cs => cases cs <;> simp [Text.lookahead]
  | case2 n => simp [Text.lookahead, Text.suffixAt, Text.cut]
  | case3 n c cs hc ih =>
    have hsuf : Text.suffixAt (c :: cs) (n + 1) = Text.suffixAt cs (n + 1 - c.utf8Size) := by
      simp [Text.suffixAt, Text.cut, hc, Option.map_map, Function.comp_def]
    have hpos := c.utf8Size_pos
    have hlen : (List.replicate (c.utf8Size - 1) (none : Option (List Char))).length ≤ n := by
      simp; omega
    have hidx : n - (c.utf8Size - 1) = n + 1 - c.utf8Size := by omega
    rw [hsuf, ← ih, Text.lookahead, List.getElem?_cons_succ, List.getElem?_append_right hlen]
    simp only [List.length_replicate, hidx]
  | case4 n c cs hc =>
    have hlt : n < (List.replicate (c.utf8Size - 1) (none : Option (List Char))).length := by
      simp; omega
    rw [Text.lookahead, List.getElem?_cons_succ, List.getElem?_append_left hlt,
      List.getElem?_replicate, if_pos (by simpa using hlt)]
    simp [Text.suffixAt, Text.cut, hc]

/-- A text to search in, with its look-ahead table. -/
structure Subject where
  text : List Char
  table : Array (Option (List Char))
  table_eq : table = (Text.lookahead text).toArray

namespace Subject

variable (s : Subject)

/-- The subject for a list of characters. -/
def ofText (text : List Char) : Subject :=
  ⟨text, (Text.lookahead text).toArray, rfl⟩

/-- The subject for a string. -/
def ofString (line : String) : Subject :=
  ofText line.toList

@[simp] theorem text_ofText (text : List Char) : (ofText text).text = text := rfl

@[simp] theorem text_ofString (line : String) : (ofString line).text = line.toList := rfl

/-- The size of the text in bytes. -/
def size : Nat :=
  s.table.size - 1

@[simp] theorem size_eq : s.size = Text.size s.text := by
  simp [size, s.table_eq, Text.length_lookahead]

/-- The text from byte offset `p` on; `none` when `p` is not a character boundary. -/
def ahead (p : Nat) : Option (List Char) :=
  s.table[p]?.join

@[simp] theorem ahead_eq (p : Nat) : s.ahead p = Text.suffixAt s.text p := by
  rw [ahead, s.table_eq, List.getElem?_toArray, Text.lookahead_getElem?]

/-- The offsets at which a match may start: every character boundary. -/
def starts : List Nat :=
  Text.boundaries s.text

/-- The text of a span; `none` unless its ends are character boundaries in order. -/
def slice (span : Span) : Option (List Char) :=
  if span.start ≤ span.stop then
    (s.ahead span.start).bind fun rest =>
      (Text.cut (span.stop - span.start) rest).map Prod.fst
  else none

/-- **The text of a span** lies between the text before its start and the text after its end. -/
theorem slice_eq_some_iff {span : Span} {w : List Char} :
    s.slice span = some w ↔ ∃ l r, s.text = l ++ w ++ r ∧
      Text.size l = span.start ∧ span.start + Text.size w = span.stop := by
  simp only [slice, ahead_eq]
  constructor
  · intro h
    split at h
    case isFalse => simp at h
    case isTrue hle =>
      obtain ⟨rest, hrest, hw⟩ := Option.bind_eq_some_iff.1 h
      obtain ⟨l, hl, hsl⟩ := Text.suffixAt_eq_some_iff.1 hrest
      obtain ⟨⟨w', r⟩, hcut, rfl⟩ := Option.map_eq_some_iff.1 hw
      obtain ⟨rfl, hsw⟩ := Text.cut_eq_some_iff.1 hcut
      exact ⟨l, r, by simp [hl], hsl, by dsimp only; omega⟩
  · rintro ⟨l, r, htext, hl, hw⟩
    rw [if_pos (by omega)]
    refine Option.bind_eq_some_iff.2
      ⟨w ++ r, Text.suffixAt_eq_some_iff.2 ⟨l, by simp [htext], hl⟩, ?_⟩
    exact Option.map_eq_some_iff.2 ⟨(w, r), Text.cut_eq_some_iff.2 ⟨rfl, by omega⟩, rfl⟩

end Subject

end LineSearch
