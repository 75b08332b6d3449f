import LineSearch.Proofs.Reading

/-!
# Balanced symbols

Balanced symbols cannot be told apart by anything that looks for a parenthesis outside of them: the
scanners for the end of a group and for its bars go through them as a whole.

* `Balanced`: each parenthesis has its partner; bars may be kept inside the parentheses.
* `closeGroup_append`, `splitBars_append`: the scanners go through balanced symbols.
* `closeGroup_body`: a balanced body ends at the parenthesis after it.
* `splitBars_intercalate`: balanced parts with bars between them are split into these parts.
* `balanced_of_closeGroup`, `balanced_of_mem_splitBars`: the body that the one scanner finds is
  balanced, and so is each part that the other one cuts it into.
* `Balanced.groupsClosed`: so whatever is read first in such a part, a parenthesis that opens after
  it is closed.
-/

namespace LineSearch

variable {bars : Bool} {depth : Nat} {a : Symbol} {s l r body : List Symbol}

/-- Symbols whose parentheses have their partners among them. `bars` tells whether there may be bars
outside of the parentheses. -/
inductive Balanced : Bool → List Symbol → Prop
  | nil {bars : Bool} : Balanced bars []
  | symbol {bars : Bool} {a : Symbol} {s : List Symbol} (hopen : a ≠ .plain '(')
    (hclose : a ≠ .plain ')') (hbar : a = .plain '|' → bars = true) (hs : Balanced bars s) :
    Balanced bars (a :: s)
  | group {bars : Bool} {body s : List Symbol} (hbody : Balanced true body)
    (hs : Balanced bars s) : Balanced bars (.plain '(' :: body ++ .plain ')' :: s)

namespace Balanced

theorem single {a : Symbol} (hopen : a ≠ .plain '(') (hclose : a ≠ .plain ')') :
    Balanced true [a] :=
  .symbol hopen hclose (fun _ => rfl) .nil

theorem append (hl : Balanced bars l) (hr : Balanced bars r) : Balanced bars (l ++ r) := by
  induction hl with
  | nil => exact hr
  | symbol hopen hclose hbar _ ih => exact .symbol hopen hclose hbar (ih hr)
  | @group bars body s hbody _ _ ih =>
    have h := Balanced.group hbody (ih hr)
    simpa using h

theorem weaken (h : Balanced bars s) : Balanced true s := by
  induction h with
  | nil => exact .nil
  | symbol hopen hclose _ _ ih => exact .symbol hopen hclose (fun _ => rfl) ih
  | group hbody _ _ ih => exact .group hbody ih

theorem of_forall_ne (h : ∀ a ∈ s, a ≠ .plain '(' ∧ a ≠ .plain ')' ∧ a ≠ .plain '|') :
    Balanced bars s := by
  induction s with
  | nil => exact .nil
  | cons a s ih =>
    obtain ⟨hopen, hclose, hbar⟩ := h a List.mem_cons_self
    have hs := ih fun b hb => h b (List.mem_cons_of_mem _ hb)
    exact .symbol hopen hclose (fun ha => absurd ha hbar) hs

/-- Balanced parts with bars between them are balanced. -/
theorem intercalate {parts : List (List Symbol)} (h : ∀ part ∈ parts, Balanced bars part) :
    Balanced true ([Symbol.plain '|'].intercalate parts) := by
  induction parts with
  | nil => exact .nil
  | cons part parts ih =>
    have hpart := (h part List.mem_cons_self).weaken
    have hparts := ih fun b hb => h b (List.mem_cons_of_mem _ hb)
    cases parts with
    | nil => simpa using hpart
    | cons part' parts =>
      have hbar : Balanced true [Symbol.plain '|'] := .single (by decide) (by decide)
      have hall := hpart.append (hbar.append hparts)
      simpa using hall

end Balanced

theorem closeGroup_cons (hopen : a ≠ .plain '(') (hclose : a ≠ .plain ')') :
    closeGroup depth (a :: s) = (closeGroup depth s).map fun found => (a :: found.1, found.2) := by
  rw [closeGroup]
  · exact fun h => hopen h
  · exact fun h => hclose h

theorem splitBars_cons (hopen : a ≠ .plain '(') (hclose : a ≠ .plain ')')
    (hbar : a = .plain '|' → 0 < depth) :
    splitBars depth (a :: s) = (splitBars depth s).modifyHead (a :: ·) := by
  by_cases ha : a = .plain '|'
  · obtain ⟨d, rfl⟩ : ∃ d, depth = d + 1 := ⟨depth - 1, by have := hbar ha; omega⟩
    subst ha
    rw [splitBars]
  · rw [splitBars]
    · exact fun h => hopen h
    · exact fun h => hclose h
    · exact fun h => ha h

/-- **The scanner for the end of a group** goes through balanced symbols. -/
theorem closeGroup_append (h : Balanced bars l) (depth : Nat) (r : List Symbol) :
    closeGroup depth (l ++ r) = (closeGroup depth r).map fun found => (l ++ found.1, found.2) := by
  induction h generalizing depth r with
  | nil => simp
  | symbol hopen hclose _ _ ih =>
    rw [List.cons_append, closeGroup_cons hopen hclose, ih, Option.map_map]
    rfl
  | @group bars body s _ _ ihbody ih =>
    have happend : .plain '(' :: body ++ .plain ')' :: s ++ r =
        Symbol.plain '(' :: (body ++ .plain ')' :: (s ++ r)) := by simp
    rw [happend, closeGroup, ihbody, closeGroup, ih]
    simp only [Option.map_map]
    congr 1
    funext found
    simp

theorem closeGroup_body (h : Balanced bars body) (rest : List Symbol) :
    closeGroup 0 (body ++ .plain ')' :: rest) = some (body, rest) := by
  rw [closeGroup_append h, closeGroup]
  simp

theorem modifyHead_modifyHead {α : Type} (f g : α → α) (l : List α) :
    (l.modifyHead g).modifyHead f = l.modifyHead fun a => f (g a) := by
  cases l <;> rfl

/-- **The scanner for the bars of a group** goes through balanced symbols, if it is inside a group
or there are no bars outside of their parentheses. -/
theorem splitBars_append (h : Balanced bars l) {depth : Nat} (hdepth : bars = true → 0 < depth)
    (r : List Symbol) :
    splitBars depth (l ++ r) = (splitBars depth r).modifyHead (l ++ ·) := by
  induction h generalizing depth r with
  | nil =>
    cases hr : splitBars depth r with
    | nil => exact absurd hr (splitBars_ne_nil _ _)
    | cons part parts => simp [hr]
  | symbol hopen hclose hbar _ ih =>
    have ha := fun h => hdepth (hbar h)
    rw [List.cons_append, splitBars_cons hopen hclose ha, ih hdepth, modifyHead_modifyHead]
    rfl
  | @group bars body s _ _ ihbody ih =>
    have happend : .plain '(' :: body ++ .plain ')' :: s ++ r =
        Symbol.plain '(' :: (body ++ .plain ')' :: (s ++ r)) := by simp
    have hinner : true = true → 0 < depth + 1 := fun _ => Nat.succ_pos depth
    rw [happend, splitBars, ihbody hinner, splitBars, Nat.add_sub_cancel, ih hdepth]
    simp only [modifyHead_modifyHead]
    congr 1
    funext x
    simp

/-- **Balanced parts without bars of their own** are what their joined text is split into. -/
theorem splitBars_intercalate {parts : List (List Symbol)} (hne : parts ≠ [])
    (h : ∀ part ∈ parts, Balanced false part) :
    splitBars 0 ([Symbol.plain '|'].intercalate parts) = parts := by
  have hzero : false = true → 0 < 0 := fun h => absurd h Bool.false_ne_true
  induction parts with
  | nil => exact absurd rfl hne
  | cons part parts ih =>
    have hpart := h part List.mem_cons_self
    cases parts with
    | nil =>
      have hsplit := splitBars_append hpart hzero []
      simpa [splitBars] using hsplit
    | cons part' parts =>
      have hparts := ih (by simp) fun b hb => h b (List.mem_cons_of_mem _ hb)
      have hjoin : [Symbol.plain '|'].intercalate (part :: part' :: parts) =
          part ++ .plain '|' :: [Symbol.plain '|'].intercalate (part' :: parts) := by simp
      rw [hjoin, splitBars_append hpart hzero, splitBars, hparts]
      simp

/-- With inner groups open, the end of a group comes after the ends of these. -/
theorem closeGroup_succ (e d : Nat) (s : List Symbol) :
    closeGroup (e + d + 1) s = (closeGroup e s).bind fun inner =>
      (closeGroup d inner.2).map fun outer => (inner.1 ++ .plain ')' :: outer.1, outer.2) := by
  induction s generalizing e with
  | nil => rfl
  | cons a s ih =>
    by_cases hopen : a = .plain '('
    · subst hopen
      have hdepth : e + d + 1 + 1 = e + 1 + d + 1 := by omega
      rw [closeGroup, closeGroup, hdepth, ih]
      cases closeGroup (e + 1) s with
      | none => rfl
      | some inner => simp [Function.comp_def]
    · by_cases hclose : a = .plain ')'
      · subst hclose
        cases e with
        | zero =>
          rw [Nat.zero_add, closeGroup, closeGroup]
          rfl
        | succ e =>
          have hdepth : e + 1 + d + 1 = e + d + 1 + 1 := by omega
          rw [hdepth, closeGroup, closeGroup, ih]
          cases closeGroup e s with
          | none => rfl
          | some inner => simp [Function.comp_def]
      · rw [closeGroup_cons hopen hclose, closeGroup_cons hopen hclose, ih]
        cases closeGroup e s with
        | none => rfl
        | some inner => simp [Function.comp_def]

/-- **The body of a group is balanced.** -/
theorem balanced_of_closeGroup {rest : List Symbol} (h : closeGroup 0 s = some (body, rest)) :
    Balanced true body := by
  induction hn : s.length using Nat.strongRecOn generalizing s body rest with
  | _ n ih =>
    subst hn
    cases s with
    | nil => cases h
    | cons a s =>
      by_cases hopen : a = .plain '('
      · -- the inner group is balanced up to its end, and what comes after it is too
        subst hopen
        rw [closeGroup, Option.map_eq_some_iff] at h
        obtain ⟨⟨b, r⟩, hb, heq⟩ := h
        obtain ⟨rfl, rfl⟩ := Prod.mk.inj heq
        have hsplit := closeGroup_succ 0 0 s
        rw [Nat.add_zero] at hsplit
        rw [hsplit, Option.bind_eq_some_iff] at hb
        obtain ⟨⟨inner, s'⟩, hinner, hb⟩ := hb
        obtain ⟨⟨outer, r'⟩, houter, heq⟩ := Option.map_eq_some_iff.1 hb
        obtain ⟨rfl, rfl⟩ := Prod.mk.inj heq
        have hlen := congrArg List.length (append_of_closeGroup hinner)
        simp only [List.length_append, List.length_cons] at hlen
        have hinside : Balanced true inner := ih s.length (by simp) hinner rfl
        have hafter : Balanced true outer :=
          ih s'.length (by rw [List.length_cons]; omega) houter rfl
        exact .group hinside hafter
      · by_cases hclose : a = .plain ')'
        · subst hclose
          obtain ⟨rfl, -⟩ := Prod.mk.inj (Option.some.inj h)
          exact .nil
        · rw [closeGroup_cons hopen hclose, Option.map_eq_some_iff] at h
          obtain ⟨⟨b, r⟩, hb, heq⟩ := h
          obtain ⟨rfl, -⟩ := Prod.mk.inj heq
          have hs : Balanced true b := ih s.length (by simp) hb rfl
          exact .symbol hopen hclose (fun _ => rfl) hs

/-- **The parts of a balanced body are balanced,** and have no bars of their own. -/
theorem balanced_of_mem_splitBars {part : List Symbol} (h : Balanced bars s)
    (hpart : part ∈ splitBars 0 s) : Balanced false part := by
  -- what is read in front of the first part goes with it
  have hhead : ∀ {l : List Symbol} {parts : List (List Symbol)},
      (∀ r, Balanced false r → Balanced false (l ++ r)) → (∀ r ∈ parts, Balanced false r) →
      ∀ r ∈ parts.modifyHead (l ++ ·), Balanced false r := by
    intro l parts hl hparts r hr
    cases parts with
    | nil => cases hr
    | cons first parts =>
      rcases List.mem_cons.1 hr with hr | hr
      · rw [hr]
        exact hl first (hparts first List.mem_cons_self)
      · exact hparts r (List.mem_cons_of_mem _ hr)
  induction h generalizing part with
  | nil =>
    rw [splitBars, List.mem_singleton] at hpart
    rw [hpart]
    exact .nil
  | @symbol bars a s hopen hclose hbar hs ih =>
    by_cases ha : a = .plain '|'
    · subst ha
      rw [splitBars, List.mem_cons] at hpart
      rcases hpart with hpart | hpart
      · rw [hpart]
        exact .nil
      · exact ih hpart
    · rw [splitBars_cons hopen hclose fun h => absurd h ha] at hpart
      have hfront : ∀ r, Balanced false r → Balanced false ([a] ++ r) :=
        fun r hr => .symbol hopen hclose (fun h => absurd h ha) hr
      exact hhead hfront (fun r hr => ih hr) part hpart
  | @group bars body s hbody hs ihbody ih =>
    have hwhole : Balanced false (.plain '(' :: body ++ .plain ')' :: []) := .group hbody .nil
    have hjoin : .plain '(' :: body ++ .plain ')' :: s =
        (.plain '(' :: body ++ .plain ')' :: []) ++ s := by simp
    rw [hjoin, splitBars_append hwhole fun h => absurd h Bool.false_ne_true] at hpart
    exact hhead (fun r hr => hwhole.append hr) (fun r hr => ih hr) part hpart

/-- Every parenthesis that opens is closed further on. -/
def GroupsClosed (s : List Symbol) : Prop :=
  ∀ l r, s = l ++ .plain '(' :: r → closeGroup 0 r ≠ none

/-- More symbols at the end do not change where a group ends. -/
theorem closeGroup_append_right {rest : List Symbol} (h : closeGroup depth s = some (body, rest))
    (t : List Symbol) : closeGroup depth (s ++ t) = some (body, rest ++ t) := by
  induction s generalizing depth body with
  | nil => cases h
  | cons a s ih =>
    by_cases hopen : a = .plain '('
    · subst hopen
      rw [closeGroup, Option.map_eq_some_iff] at h
      obtain ⟨⟨b, r⟩, hb, heq⟩ := h
      obtain ⟨rfl, rfl⟩ := Prod.mk.inj heq
      rw [List.cons_append, closeGroup, ih hb]
      rfl
    · by_cases hclose : a = .plain ')'
      · subst hclose
        cases depth with
        | zero =>
          obtain ⟨rfl, rfl⟩ := Prod.mk.inj (Option.some.inj h)
          rfl
        | succ depth =>
          rw [closeGroup, Option.map_eq_some_iff] at h
          obtain ⟨⟨b, r⟩, hb, heq⟩ := h
          obtain ⟨rfl, rfl⟩ := Prod.mk.inj heq
          rw [List.cons_append, closeGroup, ih hb]
          rfl
      · rw [closeGroup_cons hopen hclose, Option.map_eq_some_iff] at h
        obtain ⟨⟨b, r⟩, hb, heq⟩ := h
        obtain ⟨rfl, rfl⟩ := Prod.mk.inj heq
        rw [List.cons_append, closeGroup_cons hopen hclose, ih hb]
        rfl

/-- **In balanced symbols every parenthesis that opens is closed,** also by a scanner that looks at
nothing but what follows it. -/
theorem Balanced.groupsClosed (h : Balanced bars s) : GroupsClosed s := by
  induction h with
  | nil =>
    intro l r heq
    exact absurd heq (by simp)
  | symbol hopen _ _ _ ih =>
    intro l r heq
    cases l with
    | nil => exact absurd (List.cons.inj heq).1 hopen
    | cons b l => exact ih l r (List.cons.inj heq).2
  | @group bars body s hbody _ ihbody ih =>
    intro l r heq
    cases l with
    | nil =>
      have hr : r = body ++ .plain ')' :: s := (List.cons.inj heq).2.symm
      rw [hr, closeGroup_body hbody]
      exact Option.some_ne_none _
    | cons b l =>
      -- the parenthesis stands in the body, or after the group
      have htail : body ++ .plain ')' :: s = l ++ .plain '(' :: r := (List.cons.inj heq).2
      rcases List.append_eq_append_iff.1 htail with ⟨m, hl, hm⟩ | ⟨m, hbody', hm⟩
      · cases m with
        | nil => simp at hm
        | cons c m => exact ih m r (List.cons.inj hm).2
      · cases m with
        | nil => simp at hm
        | cons c m =>
          rw [List.cons_append] at hm
          obtain ⟨rfl, rfl⟩ := List.cons.inj hm
          obtain ⟨⟨inner, rest⟩, hinner⟩ := Option.ne_none_iff_exists'.1 (ihbody l m hbody')
          rw [closeGroup_append_right hinner]
          exact Option.some_ne_none _

end LineSearch
