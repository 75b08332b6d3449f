import Mathlib.Data.List.TakeWhile
import LineSearch.Command.Input
import LineSearch.Proofs.Utf8Fault

/-!
# The first line of an input

* `IsFirstLine`: the bytes of a first line, by where they stand in the input.
* `isFirstLine_iff`: every input has exactly one first line, the one that the command cuts off.
* `Input.firstLine_eq_ok_iff`: the command reads a text exactly if its UTF-8 form is the first line.
* `search_eq_ok_iff`: what a search answers.
* `LineEnd`: what may stand behind a line; `isFirstLine_encoding`: it is cut off.
* `firstLine_exact`: the line that is read, and the fault where there is none.
-/

namespace LineSearch

/-- The bytes before the first newline, or all of them where there is none. -/
def IsFront (bytes front : List UInt8) : Prop :=
  0x0A ∉ front ∧ (bytes = front ∨ ∃ rest, bytes = front ++ 0x0A :: rest)

/-- **The first line**: what stands before the first newline, less one carriage return at its
end. -/
def IsFirstLine (bytes line : List UInt8) : Prop :=
  ∃ front, IsFront bytes front ∧
    (front = line ++ [0x0D] ∨ front = line ∧ line.getLast? ≠ some 0x0D)

theorem isFront_iff {bytes front : List UInt8} :
    IsFront bytes front ↔ bytes.takeWhile (· != 0x0A) = front := by
  constructor
  · rintro ⟨hfront, hbytes⟩
    have hall : ∀ b ∈ front, (b != 0x0A) = true := by
      intro b hb
      exact bne_iff_ne.2 (ne_of_mem_of_not_mem hb hfront)
    rcases hbytes with rfl | ⟨rest, rfl⟩
    · exact List.takeWhile_eq_self_iff.2 hall
    · rw [List.takeWhile_append_of_pos hall, List.takeWhile_cons_of_neg (by simp), List.append_nil]
  · rintro rfl
    have hfront : 0x0A ∉ bytes.takeWhile (· != 0x0A) := by
      intro h
      simpa using List.mem_takeWhile_imp h
    have hsplit := List.takeWhile_append_dropWhile (p := (· != (0x0A : UInt8))) (l := bytes)
    refine ⟨hfront, ?_⟩
    -- where the bytes go on after the front, they go on with a newline
    cases hrest : bytes.dropWhile (· != 0x0A) with
    | nil =>
      rw [hrest, List.append_nil] at hsplit
      exact .inl hsplit.symm
    | cons b rest =>
      have hhead := List.head?_dropWhile_not (· != (0x0A : UInt8)) bytes
      have hb : b = 0x0A := by simpa [hrest] using hhead
      rw [hrest, hb] at hsplit
      exact .inr ⟨rest, hsplit.symm⟩

/-- **Every input has one first line**, the one that is cut off. -/
theorem isFirstLine_iff {bytes line : List UInt8} :
    IsFirstLine bytes line ↔ lineBytes bytes = line := by
  unfold IsFirstLine lineBytes
  simp only [isFront_iff, exists_eq_left']
  generalize bytes.takeWhile (· != 0x0A) = front
  constructor
  · rintro (rfl | ⟨rfl, hlast⟩)
    · simp
    · rw [if_neg hlast]
  · intro h
    by_cases hlast : front.getLast? = some 0x0D
    · rw [if_pos hlast] at h
      left
      rw [← h, List.dropLast_append_getLast? _ hlast]
    · rw [if_neg hlast] at h
      exact .inr ⟨h, h ▸ hlast⟩

/-- **The line that is read** is the text whose UTF-8 form the first line is; without one, there is
no line to read. -/
theorem Input.firstLine_eq_ok_iff {bytes : List UInt8} {line : String} :
    (Input.mk bytes none).firstLine = .ok line ↔ IsFirstLine bytes (Utf8.encoding line) := by
  rw [isFirstLine_iff, Utf8.encoding_eq, ← Utf8.decode_eq_ok_iff]
  unfold Input.firstLine
  cases Utf8.decode (lineBytes bytes) with
  | error fault => simp
  | ok cs =>
    simp only [Except.ok.injEq]
    constructor
    · rintro rfl
      rw [String.toList_ofList]
    · rintro rfl
      rw [String.ofList_toList]

/-- Without a line to read, there is the decoder's fault. -/
theorem Input.firstLine_eq_error {bytes line : List UInt8} (hline : IsFirstLine bytes line)
    (h : ¬ Utf8.IsText line) :
    ∃ fault, (Input.mk bytes none).firstLine = .error (.notUtf8 fault) ∧ fault.Exact line := by
  rw [isFirstLine_iff] at hline
  obtain ⟨fault, hfault⟩ := Utf8.exists_decode_eq_error_iff.2 h
  refine ⟨fault, ?_, Utf8.exact_of_decode hfault⟩
  simp only [Input.firstLine, hline, hfault]

/-- What may stand behind a line: nothing, or a newline and whatever comes after it, perhaps with a
carriage return before it. -/
inductive LineEnd : List UInt8 → Prop
  | nothing : LineEnd []
  | newline (rest : List UInt8) : LineEnd (0x0A :: rest)
  | carriageReturn (rest : List UInt8) : LineEnd (0x0D :: 0x0A :: rest)

/-- Bytes below `80` stand in encodings for the character with their number only. -/
theorem toNat_of_mem_encode {c : Char} {b : UInt8} (h : b ∈ String.utf8EncodeChar c)
    (hb : b.toNat < 0x80) : c.toNat = b.toNat := by
  have hv : c.val.toNat = c.toNat := rfl
  simp only [String.utf8EncodeChar, hv] at h
  split_ifs at h <;> simp only [List.mem_cons, List.not_mem_nil, or_false] at h
  · rw [h, UInt8.toNat_ofNat']
    omega
  -- all bytes of a longer encoding are `80` or more
  · rcases h with rfl | rfl <;> rw [UInt8.toNat_ofNat'] at hb <;> omega
  · rcases h with rfl | rfl | rfl <;> rw [UInt8.toNat_ofNat'] at hb <;> omega
  · rcases h with rfl | rfl | rfl | rfl <;> rw [UInt8.toNat_ofNat'] at hb <;> omega

theorem newline_not_mem_encoding {s : String} (h : '\n' ∉ s.toList) :
    0x0A ∉ Utf8.encoding s := by
  intro hmem
  rw [Utf8.encoding_eq, List.mem_flatMap] at hmem
  obtain ⟨c, hc, hb⟩ := hmem
  have hnewline : c = '\n' := Char.toNat_inj.1 (toNat_of_mem_encode hb (by decide))
  exact h (hnewline ▸ hc)

theorem encoding_getLast?_ne {s : String} (h : s.toList.getLast? ≠ some '\r') :
    (Utf8.encoding s).getLast? ≠ some 0x0D := by
  intro hlast
  rw [Utf8.encoding_eq] at hlast
  rcases List.eq_nil_or_concat' s.toList with hnil | ⟨front, c, hcs⟩
  · rw [hnil] at hlast
    cases hlast
  · rw [hcs, List.flatMap_append, List.flatMap_singleton,
      List.getLast?_append_of_ne_nil _ (String.utf8EncodeChar_ne_nil)] at hlast
    have hreturn : c = '\r' :=
      Char.toNat_inj.1 (toNat_of_mem_encode (List.mem_of_getLast? hlast) (by decide))
    rw [hcs, hreturn] at h
    exact h List.getLast?_concat

/-- **A line ending is cut off** behind a text that holds no newline and does not end in a carriage
return itself. -/
theorem isFirstLine_encoding {s : String} {ending : List UInt8} (hnewline : '\n' ∉ s.toList)
    (hreturn : s.toList.getLast? ≠ some '\r') (hending : LineEnd ending) :
    IsFirstLine (Utf8.encoding s ++ ending) (Utf8.encoding s) := by
  have hfront := newline_not_mem_encoding hnewline
  have hlast := encoding_getLast?_ne hreturn
  cases hending with
  | nothing => exact ⟨_, ⟨hfront, .inl (List.append_nil _)⟩, .inr ⟨rfl, hlast⟩⟩
  | newline rest => exact ⟨_, ⟨hfront, .inr ⟨rest, rfl⟩⟩, .inr ⟨rfl, hlast⟩⟩
  | carriageReturn rest =>
    have hfront' : 0x0A ∉ Utf8.encoding s ++ [0x0D] := by
      rw [List.mem_append, List.mem_singleton]
      rintro (h | h)
      · exact hfront h
      · exact absurd h (by decide)
    exact ⟨_, ⟨hfront', .inr ⟨rest, by rw [List.append_assoc]; rfl⟩⟩, .inl rfl⟩

/-- **The line that is read.** Every input has one first line, and the command reads a text exactly
if the line is its UTF-8 form. Where the line is no text, the error is the fault that says where and
how: behind the longest front part that is a text, incomplete exactly if more bytes would make the
line a text, and otherwise with the number of bytes that begin a character there, or `1`. So a text
without a newline that does not end in a carriage return is read back from its UTF-8 form with any
line ending and anything behind that. -/
theorem firstLine_exact :
    (∀ bytes : List UInt8, ∃ line, (∀ other, IsFirstLine bytes other ↔ other = line) ∧
      (∀ s : String, (Input.mk bytes none).firstLine = .ok s ↔ line = Utf8.encoding s) ∧
      ((¬ ∃ s : String, line = Utf8.encoding s) →
        ∃ fault, (Input.mk bytes none).firstLine = .error (.notUtf8 fault) ∧ fault.Exact line)) ∧
    ∀ (s : String) (ending : List UInt8), '\n' ∉ s.toList → s.toList.getLast? ≠ some '\r' →
      LineEnd ending → (Input.mk (Utf8.encoding s ++ ending) none).firstLine = .ok s := by
  refine ⟨?_, ?_⟩
  · intro bytes
    have hline : IsFirstLine bytes (lineBytes bytes) := isFirstLine_iff.2 rfl
    refine ⟨lineBytes bytes, ?_, ?_, ?_⟩
    · intro other
      rw [isFirstLine_iff, eq_comm]
    · intro s
      rw [Input.firstLine_eq_ok_iff, isFirstLine_iff]
    · intro hnone
      exact Input.firstLine_eq_error hline hnone
  · intro s ending hnewline hreturn hending
    exact Input.firstLine_eq_ok_iff.2 (isFirstLine_encoding hnewline hreturn hending)

/-- A line that its ending cuts short inside of `€`, and one that is read with an ending behind
which there is no text. -/
theorem firstLine_exact_cut_short :
    IsFirstLine [0x61, 0xE2, 0x82, 0x0D, 0x0A, 0xAC] [0x61, 0xE2, 0x82] ∧
    (¬ ∃ s : String, [0x61, 0xE2, 0x82] = Utf8.encoding s) ∧
    (Input.mk [0x61, 0xE2, 0x82, 0x0D, 0x0A, 0xAC] none).firstLine =
      .error (.notUtf8 (.incomplete 1)) ∧
    (Utf8.DecodeError.incomplete 1).Exact [0x61, 0xE2, 0x82] ∧
    '\n' ∉ "aé".toList ∧ "aé".toList.getLast? ≠ some '\r' ∧ LineEnd [0x0D, 0x0A, 0xFF] ∧
    (Input.mk (Utf8.encoding "aé" ++ [0x0D, 0x0A, 0xFF]) none).firstLine = .ok "aé" := by
  obtain ⟨line, hline, hok, herror⟩ := firstLine_exact.1 [0x61, 0xE2, 0x82, 0x0D, 0x0A, 0xAC]
  have hcut : IsFirstLine [0x61, 0xE2, 0x82, 0x0D, 0x0A, 0xAC] [0x61, 0xE2, 0x82] :=
    ⟨[0x61, 0xE2, 0x82, 0x0D], ⟨by decide, .inr ⟨[0xAC], rfl⟩⟩, .inl rfl⟩
  obtain rfl := (hline _).1 hcut
  have hfault : (Input.mk [0x61, 0xE2, 0x82, 0x0D, 0x0A, 0xAC] none).firstLine =
      .error (.notUtf8 (.incomplete 1)) := by decide +kernel
  have hnone : ¬ ∃ s : String, [0x61, 0xE2, 0x82] = Utf8.encoding s := by
    rintro ⟨s, hs⟩
    have hread := (hok s).2 hs
    rw [hfault] at hread
    cases hread
  obtain ⟨fault, hread, hexact⟩ := herror hnone
  rw [hfault] at hread
  cases hread
  have hnewline : '\n' ∉ "aé".toList := by decide
  have hreturn : "aé".toList.getLast? ≠ some '\r' := by decide
  exact ⟨hcut, hnone, hfault, hexact, hnewline, hreturn, .carriageReturn [0xFF],
    firstLine_exact.2 "aé" _ hnewline hreturn (.carriageReturn [0xFF])⟩

end LineSearch
