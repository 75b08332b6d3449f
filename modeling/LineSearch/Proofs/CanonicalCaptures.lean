import LineSearch.Proofs.GroupNumbers
import LineSearch.Proofs.Noninterference

/-!
# Captures have one form

Captures are a list with room for every group up to the last one that has a span. Nothing that a
match tries and gives up leaves room behind, so captures that show the same spans are equal.

* `Captures.Canonical`: there is no room behind the last span.
* `Captures.Canonical.record`, `Captures.Canonical.attempted`: a span that is recorded leaves none,
  and neither does an attempt.
* `Captures.Canonical.ext`: then the spans make up the captures.
* `Captures.Reached`: the captures that attempts, copies and clears lead to, one after another;
  `Session.tables_reached`: a session has no others.
* `captures_canonical`: their form, and what their comparison tells.
-/

namespace LineSearch

namespace Captures

variable {t u : Captures} {g : Nat} {span : Span}

/-- The list of spans is empty or ends in a span. -/
def Canonical (t : Captures) : Prop :=
  t.spans = [] ∨ ∃ span, t.spans.getLast? = some (some span)

theorem canonical_empty : empty.Canonical :=
  .inl rfl

/-- **Recording a span** leaves no room behind the last one: the list grows up to the group of the
span and no further. -/
theorem Canonical.record (h : t.Canonical) (g : GroupNumber) (span : Span) :
    (t.record g span).Canonical := by
  have hg := g.pos
  right
  unfold Captures.record
  simp only [List.getLast?_eq_getElem?, List.length_set, List.length_rightpad, List.getElem?_set]
  by_cases hlast : g.val - 1 = max g.val t.spans.length - 1
  · exact ⟨span, by rw [if_pos hlast, if_pos (by omega)]⟩
  · -- the list was longer than that, and its end is the same
    rw [if_neg hlast]
    have hlen : g.val < t.spans.length := by omega
    rcases h with h | ⟨last, h⟩
    · rw [h, List.length_nil] at hlen
      omega
    · refine ⟨last, ?_⟩
      rw [List.getLast?_eq_getElem?] at h
      rw [max_eq_right (by omega), List.rightpad, List.getElem?_append_left (by omega), h]

theorem Canonical.recordAll (h : t.Canonical) (writes : List (GroupNumber × Span)) :
    (t.recordAll writes).Canonical := by
  induction writes generalizing t with
  | nil => exact h
  | cons w writes ih => exact ih (h.record w.1 w.2)

/-- What a match leaves behind are the captures that it began with and the spans that it recorded;
of the branches that it gave up there is no trace. -/
theorem exists_recordAll {s : Subject} {pieces : List Piece} {p e : Nat}
    (h : matchPieces s pieces p t = .matched e u) : ∃ writes, u = t.recordAll writes := by
  have hself : AgreeFor s pieces t t := fun n q _ => rfl
  have hsame := matchPieces_sameFrom (p := p) hself
  rw [h] at hsame
  cases hsame with
  | matched _ => exact ⟨_, rfl⟩

/-- **An attempt keeps captures canonical,** wherever it starts and whether it finds a match or
not. -/
theorem Canonical.attempted {s : Subject} {pieces : List Piece} {p : Nat} {stop : Option Nat}
    (ht : t.Canonical) (h : (attempt s pieces p).run t = .ok (stop, u)) : u.Canonical := by
  rw [run_attempt] at h
  cases hmatch : matchPieces s pieces p t with
  | offBoundary =>
    rw [hmatch] at h
    cases h
  | failed =>
    rw [hmatch] at h
    cases h
    exact ht
  | matched e v =>
    rw [hmatch] at h
    cases h
    obtain ⟨writes, rfl⟩ := exists_recordAll hmatch
    exact ht.recordAll writes

/-- The last span has a place in all captures that show it. -/
theorem Canonical.length_le (ht : t.Canonical) (h : ∀ g, t.span? g = u.span? g) :
    t.spans.length ≤ u.spans.length := by
  rcases ht with ht | ⟨last, ht⟩
  · rw [ht]
    exact Nat.zero_le _
  · rw [List.getLast?_eq_getElem?] at ht
    have hspan := h (t.spans.length - 1 + 1)
    unfold span? at hspan
    simp only at hspan
    rw [ht] at hspan
    by_contra hlt
    rw [List.getElem?_eq_none (by omega)] at hspan
    cases hspan

/-- **Canonical captures are made up of their spans.** -/
theorem Canonical.ext (ht : t.Canonical) (hu : u.Canonical) (h : ∀ g, t.span? g = u.span? g) :
    t = u := by
  have hlen : t.spans.length = u.spans.length :=
    Nat.le_antisymm (ht.length_le h) (hu.length_le fun g => (h g).symm)
  have hspans : t.spans = u.spans := by
    apply List.ext_getElem hlen
    intro g hg hg'
    have hspan := h (g + 1)
    unfold span? at hspan
    simp only at hspan
    rw [List.getElem?_eq_getElem hg, List.getElem?_eq_getElem hg'] at hspan
    exact hspan
  cases t
  cases u
  exact congrArg Captures.mk hspans

/-- The captures that are reached from none at all. -/
inductive Reached : Captures → Prop
  | empty : Reached .empty
  /-- By an attempt to match any pieces, in any line and from any offset, that found a match or
  not. -/
  | attempted {s : Subject} {pieces : List Piece} {p : Nat} {stop : Option Nat} {t u : Captures}
    (ht : Reached t) (h : (attempt s pieces p).run t = .ok (stop, u)) : Reached u
  /-- By a copy, which holds the same list of spans. -/
  | copied {t u : Captures} (ht : Reached t) (h : u.spans = t.spans) : Reached u
  /-- By clearing captures that are reached. -/
  | cleared {t u : Captures} (ht : Reached t) (h : u.spans = []) : Reached u

theorem Reached.canonical (h : t.Reached) : t.Canonical := by
  induction h with
  | empty => exact canonical_empty
  | attempted _ h ih => exact ih.attempted h
  | copied _ h ih =>
    unfold Canonical
    rw [h]
    exact ih
  | cleared _ h _ => exact .inl h

theorem Reached.eq_iff (ht : t.Reached) (hu : u.Reached) :
    t = u ↔ ∀ g, t.span? g = u.span? g := by
  constructor
  · rintro rfl g
    rfl
  · intro h
    exact ht.canonical.ext hu.canonical h

end Captures

namespace Session

variable {session session' : Session} {a : Step} {answer : Answer}

/-- All captures that a session holds, those in use and those saved. -/
def tables (session : Session) : List Captures :=
  session.captures :: session.saved.map Prod.snd

theorem mem_of_named {α : Type} {name : String} {entries : List (String × α)} {value : α}
    (h : named name entries = .ok value) : value ∈ entries.map Prod.snd := by
  unfold named at h
  split at h
  · rename_i found hfound
    cases h
    obtain ⟨before, later, rfl, -⟩ := List.lookup_eq_some_iff.1 hfound
    simp
  · cases h

/-- **What a step does to the captures** that a session holds: it leaves them, drops some, copies
them, clears those in use, or makes an attempt on them. -/
theorem step_tables (h : session.step a = .ok (session', answer))
    (ht : ∀ t ∈ session.tables, t.Reached) : ∀ t ∈ session'.tables, t.Reached := by
  have hcaptures : session.captures.Reached := ht _ List.mem_cons_self
  have hsaved : ∀ t ∈ session.saved.map Prod.snd, t.Reached :=
    fun t hmem => ht t (List.mem_cons_of_mem _ hmem)
  cases a with
  | compile name pattern taken =>
    cases h
    exact ht
  | find name line start =>
    obtain ⟨pieces, -, h⟩ := bind_eq_ok_iff.1 h
    dsimp only at h
    split at h
    · cases h
    · rename_i stop u hrun
      cases h
      exact List.forall_mem_cons.2 ⟨.attempted hcaptures hrun, hsaved⟩
  | get group line =>
    cases h
    exact ht
  | clear =>
    cases h
    exact List.forall_mem_cons.2 ⟨.cleared hcaptures rfl, hsaved⟩
  | save name =>
    cases h
    exact List.forall_mem_cons.2
      ⟨hcaptures, List.forall_mem_cons.2 ⟨.copied hcaptures rfl, hsaved⟩⟩
  | load name =>
    obtain ⟨captures, hnamed, h⟩ := bind_eq_ok_iff.1 h
    cases h
    exact List.forall_mem_cons.2 ⟨.copied (hsaved _ (mem_of_named hnamed)) rfl, hsaved⟩
  | same name =>
    obtain ⟨captures, -, h⟩ := bind_eq_ok_iff.1 h
    cases h
    exact ht
  | samePrograms a b =>
    obtain ⟨pieces, -, h⟩ := bind_eq_ok_iff.1 h
    obtain ⟨others, -, h⟩ := bind_eq_ok_iff.1 h
    cases h
    exact ht

/-- **A session holds no captures but those that attempts, copies and clears lead to.** -/
theorem tables_reached {steps : List Step} (ht : ∀ t ∈ session.tables, t.Reached) :
    ∀ t ∈ (session.after steps).tables, t.Reached := by
  induction steps generalizing session with
  | nil => exact ht
  | cons step steps ih =>
    rw [Session.after]
    cases hstep : session.step step with
    | error e => exact ih ht
    | ok result => exact ih (step_tables hstep ht)

end Session

/-- **Captures have one form.** The captures that are reached from none by attempts to match any
pieces, in any lines and from any offsets, that find something or fail, by copies and by clears
leave no room behind the last span, so they are equal if every group has the same span in both, or
none. A session that starts without captures, whatever its programs are, holds no others after any
steps. So what it answers when it compares its captures with saved ones is whether all groups have
the same spans. -/
theorem captures_canonical :
    (∀ t : Captures, t.Reached → t.spans = [] ∨ ∃ span, t.spans.getLast? = some (some span)) ∧
      (∀ t u : Captures, t.Reached → u.Reached → (t = u ↔ ∀ g, t.span? g = u.span? g)) ∧
      ∀ (session : Session) (steps : List Session.Step), session.captures = .empty →
        session.saved = [] →
        (∀ t ∈ (session.after steps).tables, t.Reached) ∧
        ∀ (name : String) (t : Captures), Session.named name (session.after steps).saved = .ok t →
          ∃ equal, (session.after steps).step (.same name) =
              .ok (session.after steps, .equal equal) ∧
            (equal = true ↔ ∀ g, (session.after steps).captures.span? g = t.span? g) := by
  refine ⟨fun t ht => ht.canonical, fun t u ht hu => ht.eq_iff hu, ?_⟩
  intro session steps hempty hsaved
  have hstart : ∀ t ∈ session.tables, t.Reached := by
    unfold Session.tables
    rw [hempty, hsaved]
    exact List.forall_mem_cons.2 ⟨.empty, by simp⟩
  have hreached : ∀ t ∈ (session.after steps).tables, t.Reached := Session.tables_reached hstart
  refine ⟨hreached, ?_⟩
  intro name t hnamed
  have ht : t.Reached := hreached t (List.mem_cons_of_mem _ (Session.mem_of_named hnamed))
  refine ⟨decide ((session.after steps).captures = t), ?_, ?_⟩
  · rw [Session.step, hnamed]
    rfl
  · rw [decide_eq_true_iff]
    exact (hreached _ List.mem_cons_self).eq_iff ht

/-- A session that saves what it found, clears, finds nothing and then finds the same again, each
time after a branch that a higher group was captured in. -/
theorem captures_canonical_session :
    let steps : List Session.Step :=
      [.compile "a" "(x(y)z|x)y" none, .find "a" "xyw" 0, .save "first", .clear,
        .find "a" "xw" 0, .find "a" "xy" 0]
    Session.new.captures = .empty ∧ Session.new.saved = [] ∧
      Session.named "first" (Session.new.after steps).saved = .ok ⟨[some ⟨0, 1⟩]⟩ ∧
      (∀ t ∈ (Session.new.after steps).tables, t.Reached) ∧
      (∃ equal, (Session.new.after steps).step (.same "first") =
          .ok (Session.new.after steps, .equal equal) ∧
        (equal = true ↔ ∀ g, (Session.new.after steps).captures.span? g =
          Captures.span? ⟨[some ⟨0, 1⟩]⟩ g)) ∧
      Captures.Reached ⟨[some ⟨0, 1⟩]⟩ ∧ (Session.new.after steps).captures.Reached ∧
      ((Session.new.after steps).captures = ⟨[some ⟨0, 1⟩]⟩ ↔
        ∀ g, (Session.new.after steps).captures.span? g = Captures.span? ⟨[some ⟨0, 1⟩]⟩ g) := by
  intro steps
  have hnamed : Session.named "first" (Session.new.after steps).saved =
      .ok ⟨[some ⟨0, 1⟩]⟩ := by decide +kernel
  obtain ⟨htables, hsame⟩ := captures_canonical.2.2 Session.new steps rfl rfl
  have hfirst : Captures.Reached ⟨[some ⟨0, 1⟩]⟩ :=
    htables _ (List.mem_cons_of_mem _ (Session.mem_of_named hnamed))
  have hlast : (Session.new.after steps).captures.Reached := htables _ List.mem_cons_self
  exact ⟨rfl, rfl, hnamed, htables, hsame _ _ hnamed, hfirst, hlast,
    captures_canonical.2.1 _ _ hlast hfirst⟩

end LineSearch
