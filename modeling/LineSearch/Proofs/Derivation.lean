import LineSearch.Match.Captures
import LineSearch.Proofs.GroupTree
import LineSearch.Proofs.Slice

/-!
# Derivations

A derivation says what each piece of a sequence takes from a subject, with no order among the
choices. It starts at an offset with some captures and leads to an offset and captures.

* `Atom.Takes`: what an atom with its quantifier may take.
* `Derives`: the derivations. An alternative of a group begins with the captures that the group
  began with, and every repetition of a group does so again.
* `Derives.group_cases`: a group is skipped, or one derivation of an alternative ends where the
  group ends and alone decides what the groups inside captured.
* `Derives.append`: a sequence is derived part by part.
* `Derives.span?_cases`: a derivation changes the spans of its own groups only, and to spans that
  lie between its ends; `Derives.span?_mem_starts`: at boundaries.
-/

namespace LineSearch

/-- How many times something with a quantifier may occur. -/
def Quantifier.Allows : Quantifier → Nat → Prop
  | one, n => n = 1
  | plus, n => 1 ≤ n
  | optional, n => n ≤ 1

/-- What lies between two allowed counts is allowed. -/
theorem Quantifier.Allows.between {q : Quantifier} {k m n : Nat} (hk : q.Allows k) (hn : q.Allows n)
    (hkm : k ≤ m) (hmn : m ≤ n) : q.Allows m := by
  cases q <;> simp only [Quantifier.Allows] at * <;> omega

/-- An atom with a quantifier may take the characters `w`. -/
def Atom.Takes (x : Atom) (q : Quantifier) (w : List Char) : Prop :=
  q.Allows w.length ∧ ∀ c ∈ w, x.accepts c = true

/-- `Derives s pieces p t e u`: the pieces can take the text of `s` from `p` to `e`, beginning with
the captures `t` and ending with `u`. -/
inductive Derives (s : Subject) : List Piece → Nat → Captures → Nat → Captures → Prop
  | nil {p t} : Derives s [] p t p t
  | atom {x : Atom} {q w rest p m e t u} (hx : x.Takes q w) (hw : s.slice ⟨p, m⟩ = some w)
    (hr : Derives s rest m t e u) : Derives s (.atom x q :: rest) p t e u
  /-- Once the text that the group captured. -/
  | backref {n q w rest p m e u} {t : Captures} (ht : t.text? s n = some w)
    (hw : s.slice ⟨p, m⟩ = some w) (hr : Derives s rest m t e u) :
    Derives s (.backref n q :: rest) p t e u
  /-- One occurrence of a group, by any of its alternatives. -/
  | once {number alternatives part q rest p m e t u} {v : Captures} (hq : q ≠ .plus)
    (ha : part ∈ alternatives) (hd : Derives s part p t m v)
    (hr : Derives s rest m (v.note number ⟨p, m⟩) e u) :
    Derives s (.group number alternatives q :: rest) p t e u
  | skip {number alternatives rest p e t u} (hr : Derives s rest p t e u) :
    Derives s (.group number alternatives .optional :: rest) p t e u
  /-- There are `n + 1` repetitions, and repetition `i` takes the text from `ends i` up to
  `ends (i + 1)`. Each begins with the captures `t`, and the captures of the last one are kept. -/
  | repeated {number alternatives rest p e t u} {n : Nat} {ends : Nat → Nat}
    {choice : Nat → List Piece} {tables : Nat → Captures} (hp : ends 0 = p)
    (hlt : ∀ i ≤ n, ends i < ends (i + 1)) (ha : ∀ i ≤ n, choice i ∈ alternatives)
    (hd : ∀ i ≤ n, Derives s (choice i) (ends i) t (ends (i + 1)) (tables i))
    (hr : Derives s rest (ends (n + 1)) ((tables n).note number ⟨p, ends (n + 1)⟩) e u) :
    Derives s (.group number alternatives .plus :: rest) p t e u

variable {s : Subject} {pieces rest part l r : List Piece} {alternatives : List (List Piece)}
  {number : Option GroupNumber} {q : Quantifier} {p m e : Nat} {t u v : Captures}

namespace Derives

/-- **How a group is derived:** it is skipped, or one derivation of an alternative ends where the
group ends and gives the captures to go on with. For a repeated group it is the last one. -/
theorem group_cases (h : Derives s (.group number alternatives q :: rest) p t e u) :
    (q = .optional ∧ Derives s rest p t e u) ∨
      ∃ part ∈ alternatives, ∃ k m v, p ≤ k ∧ (q = .plus → p < m) ∧
        Derives s part k t m v ∧ Derives s rest m (v.note number ⟨p, m⟩) e u := by
  cases h with
  | once hq ha hd hr =>
    exact .inr ⟨_, ha, _, _, _, Nat.le_refl _, fun h => absurd h hq, hd, hr⟩
  | skip hr => exact .inl ⟨rfl, hr⟩
  | @repeated _ _ _ _ _ _ _ n ends choice tables hp hlt ha hd hr =>
    have hmono : ∀ i, i ≤ n → p ≤ ends i := by
      intro i
      induction i with
      | zero => intro _; omega
      | succ i ih =>
        intro hi
        have h1 := ih (by omega)
        have h2 := hlt i (by omega)
        omega
    have hn := hmono n (Nat.le_refl n)
    have hlast := hlt n (Nat.le_refl n)
    exact .inr ⟨choice n, ha n (Nat.le_refl n), ends n, ends (n + 1), tables n, hn,
      fun _ => by omega, hd n (Nat.le_refl n), hr⟩

/-- A derivation of two sequences in a row goes through an offset between them. -/
theorem append (h : Derives s (l ++ r) p t e u) :
    ∃ m v, Derives s l p t m v ∧ Derives s r m v e u := by
  induction l generalizing p t with
  | nil => exact ⟨p, t, .nil, h⟩
  | cons piece l ih =>
    rw [List.cons_append] at h
    cases h with
    | atom hx hw hr =>
      obtain ⟨m, v, hl, hr⟩ := ih hr
      exact ⟨m, v, .atom hx hw hl, hr⟩
    | backref ht hw hr =>
      obtain ⟨m, v, hl, hr⟩ := ih hr
      exact ⟨m, v, .backref ht hw hl, hr⟩
    | once hq ha hd hr =>
      obtain ⟨m, v, hl, hr⟩ := ih hr
      exact ⟨m, v, .once hq ha hd hl, hr⟩
    | skip hr =>
      obtain ⟨m, v, hl, hr⟩ := ih hr
      exact ⟨m, v, .skip hl, hr⟩
    | repeated hp hlt ha hd hr =>
      obtain ⟨m, v, hl, hr⟩ := ih hr
      exact ⟨m, v, .repeated hp hlt ha hd hl, hr⟩

/-- A derivation does not go back. -/
theorem le (h : Derives s pieces p t e u) : p ≤ e := by
  induction pieces using pieces_induction generalizing p t e u with
  | nil => cases h; exact Nat.le_refl _
  | atom x q rest ih =>
    cases h with
    | atom hx hw hr => exact Nat.le_trans (Subject.le_of_slice hw) (ih hr)
  | backref n q rest ih =>
    cases h with
    | backref ht hw hr => exact Nat.le_trans (Subject.le_of_slice hw) (ih hr)
  | group number alternatives q rest iha ih =>
    rcases h.group_cases with ⟨-, hr⟩ | ⟨part, ha, k, m, v, hk, -, hd, hr⟩
    · exact ih hr
    · have := iha part ha hd
      have := ih hr
      omega

/-- If each repetition leads from a boundary to a boundary, all ends of the repetitions are
boundaries. -/
theorem ends_mem_starts {ends : Nat → Nat} {n : Nat} (h0 : ends 0 ∈ s.starts)
    (hstep : ∀ i ≤ n, ends i ∈ s.starts → ends (i + 1) ∈ s.starts) :
    ∀ i ≤ n + 1, ends i ∈ s.starts := by
  intro i
  induction i with
  | zero => intro _; exact h0
  | succ i ih => intro hi; exact hstep i (by omega) (ih (by omega))

/-- From a boundary a derivation leads to a boundary. -/
theorem mem_starts (h : Derives s pieces p t e u) (hp : p ∈ s.starts) : e ∈ s.starts := by
  induction h with
  | nil => exact hp
  | atom hx hw hr ih => exact ih (Subject.right_mem_starts hw)
  | backref ht hw hr ih => exact ih (Subject.right_mem_starts hw)
  | once hq ha hd hr ihd ih => exact ih (ihd hp)
  | skip hr ih => exact ih hp
  | repeated h0 hlt ha hd hr ihd ih =>
    have hends := ends_mem_starts (by rw [h0]; exact hp) ihd
    exact ih (hends _ (Nat.le_refl _))

/-- **A derivation changes the spans of its own groups only,** and to spans between its ends. -/
theorem span?_cases (h : Derives s pieces p t e u) (g : Nat) :
    u.span? g = t.span? g ∨ g ∈ numbers pieces ∧
      ∃ σ, u.span? g = some σ ∧ p ≤ σ.start ∧ σ.start ≤ σ.stop ∧ σ.stop ≤ e := by
  induction pieces using pieces_induction generalizing p t e u with
  | nil => cases h; exact .inl rfl
  | atom x q rest ih =>
    cases h with
    | atom hx hw hr =>
      have hpm := Subject.le_of_slice hw
      rcases ih hr with h | ⟨hg, σ, hσ, h1, h2, h3⟩
      · exact .inl h
      · exact .inr ⟨hg, σ, hσ, by omega, h2, h3⟩
  | backref n q rest ih =>
    cases h with
    | backref ht hw hr =>
      have hpm := Subject.le_of_slice hw
      rcases ih hr with h | ⟨hg, σ, hσ, h1, h2, h3⟩
      · exact .inl h
      · exact .inr ⟨hg, σ, hσ, by omega, h2, h3⟩
  | group number alternatives q rest iha ih =>
    rw [numbers_cons, numbers_group]
    rcases h.group_cases with ⟨-, hr⟩ | ⟨part, ha, k, m, v, hk, -, hd, hr⟩
    · rcases ih hr with h | ⟨hg, hσ⟩
      · exact .inl h
      · exact .inr ⟨List.mem_append_right _ hg, hσ⟩
    · have hkm := hd.le
      have hme := hr.le
      rcases ih hr with h | ⟨hg, σ, hσ, h1, h2, h3⟩
      · -- what follows the group leaves `g` alone: the group noted it, or the alternative did
        rw [h, Captures.span?_note]
        split
        · rename_i hn
          refine .inr ⟨?_, ⟨p, m⟩, rfl, Nat.le_refl _, by simp only; omega, hme⟩
          rw [hn]
          exact List.mem_append_left _ (List.mem_append_left _ List.mem_cons_self)
        · rcases iha part ha hd with h | ⟨hg, σ, hσ, h1, h2, h3⟩
          · exact .inl h
          · refine .inr ⟨?_, σ, hσ, by omega, h2, by omega⟩
            simp only [List.mem_append, List.mem_flatMap]
            exact .inl (.inr ⟨part, ha, hg⟩)
      · exact .inr ⟨List.mem_append_right _ hg, σ, hσ, by omega, h2, h3⟩

/-- From a boundary, the spans that a derivation changes begin and end at boundaries. -/
theorem span?_mem_starts (h : Derives s pieces p t e u) (hp : p ∈ s.starts) (g : Nat) :
    u.span? g = t.span? g ∨
      ∃ σ, u.span? g = some σ ∧ σ.start ∈ s.starts ∧ σ.stop ∈ s.starts := by
  -- a group notes a span after its alternative, and what follows may change spans again
  have hnote : ∀ {number : Option GroupNumber} {p m : Nat} {t v u : Captures}, p ∈ s.starts →
      m ∈ s.starts →
      (v.span? g = t.span? g ∨
        ∃ σ, v.span? g = some σ ∧ σ.start ∈ s.starts ∧ σ.stop ∈ s.starts) →
      (u.span? g = (v.note number ⟨p, m⟩).span? g ∨
        ∃ σ, u.span? g = some σ ∧ σ.start ∈ s.starts ∧ σ.stop ∈ s.starts) →
      (u.span? g = t.span? g ∨
        ∃ σ, u.span? g = some σ ∧ σ.start ∈ s.starts ∧ σ.stop ∈ s.starts) := by
    intro number p m t v u hp hm hv hu
    rcases hu with hu | hu
    · rw [hu, Captures.span?_note]
      split
      · exact .inr ⟨⟨p, m⟩, rfl, hp, hm⟩
      · exact hv
    · exact .inr hu
  induction h with
  | nil => exact .inl rfl
  | atom hx hw hr ih => exact ih (Subject.right_mem_starts hw)
  | backref ht hw hr ih => exact ih (Subject.right_mem_starts hw)
  | once hq ha hd hr ihd ih =>
    have hm := hd.mem_starts hp
    exact hnote hp hm (ihd hp) (ih hm)
  | skip hr ih => exact ih hp
  | @repeated _ _ _ _ _ _ _ n _ _ _ h0 hlt ha hd hr ihd ih =>
    have hends := ends_mem_starts (by rw [h0]; exact hp) fun i hi hs => (hd i hi).mem_starts hs
    have hlast := hends (n + 1) (Nat.le_refl _)
    exact hnote hp hlast (ihd n (Nat.le_refl n) (hends n (by omega))) (ih hlast)

end Derives

end LineSearch
