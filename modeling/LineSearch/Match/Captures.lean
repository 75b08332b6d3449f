import LineSearch.Pattern.Piece
import LineSearch.Text.Subject

/-!
# Captures

* `Captures`: the span that each group captured, if it did.
* `Captures.record`: notes the span of a group; `span?_record`: of no other.
* `Captures.note`: the same for a group that need not have a number; `span?_note`.
* `Captures.text?`: the text of a group's span in a subject, which need not be the subject that
  the span was captured in.
* `Captures.report`: what groups `1` to some number captured.
-/

namespace LineSearch

/-- The spans of groups `1`, `2`, … in order. Groups after the last entry captured nothing. -/
structure Captures where
  spans : List (Option Span)
  deriving DecidableEq, Repr

/-- A span and its text. -/
structure Capture where
  span : Span
  text : List Char
  deriving DecidableEq, Repr

namespace Captures

variable (t : Captures) (s : Subject) {g : GroupNumber} {h : Nat} {span : Span}

/-- No group has captured anything. -/
def empty : Captures :=
  ⟨[]⟩

/-- The span that a group captured. There is no group `0`. -/
def span? : Nat → Option Span
  | 0 => none
  | g + 1 => t.spans[g]?.join

/-- Notes the span of a group. -/
def record (g : GroupNumber) (span : Span) : Captures :=
  ⟨(t.spans.rightpad g none).set (g - 1) (some span)⟩

/-- Notes the span of a group if the group has a number. -/
def note (number : Option GroupNumber) (span : Span) : Captures :=
  match number with
  | none => t
  | some g => t.record g span

@[simp] theorem span?_empty (g : Nat) : empty.span? g = none := by
  cases g <;> simp [empty, span?]

/-- **Recording a span changes one group.** -/
theorem span?_record :
    (t.record g span).span? h = if h = g then some span else t.span? h := by
  have hg := g.pos
  cases h with
  | zero => rw [if_neg (by omega)]; rfl
  | succ h =>
    simp only [span?, record, List.getElem?_set, List.length_rightpad]
    by_cases hgh : g.val - 1 = h
    · rw [if_pos hgh, if_pos (by omega), if_pos (by omega)]
      rfl
    · rw [if_neg hgh, if_neg (by omega)]
      simp only [List.rightpad, List.getElem?_append, List.getElem?_replicate]
      split
      · rfl
      · rename_i hlt
        rw [List.getElem?_eq_none (Nat.le_of_not_lt hlt)]
        split <;> rfl

theorem span?_note (number : Option GroupNumber) :
    (t.note number span).span? h =
      if number.map (·.val) = some h then some span else t.span? h := by
  cases number with
  | none => simp [note]
  | some g =>
    rw [note, span?_record]
    simp only [Option.map_some, Option.some.injEq, eq_comm]

/-- The text of a group's span; `none` if the group captured nothing or if its span does not lie
between character boundaries of the subject. -/
def text? (g : Nat) : Option (List Char) :=
  (t.span? g).bind s.slice

/-- What a recorded span stands for in a subject. -/
def capture? (span : Option Span) : Option Capture :=
  span.bind fun span => (s.slice span).map fun text => ⟨span, text⟩

/-- What a group captured, as the subject shows it. -/
def get? (g : Nat) : Option Capture :=
  capture? s (t.span? g)

/-- What groups `1` to `count` captured, as the subject shows it. -/
def report (count : Nat) : List (Option Capture) :=
  ((t.spans.rightpad count none).take count).map (capture? s)

theorem length_report (count : Nat) : (t.report s count).length = count := by
  simp [report]
  omega

end Captures

end LineSearch
