import Mathlib.Order.Bounds.Defs
import LineSearch.Proofs.Utf8

/-!
# Where decoding breaks off

* `Utf8.IsText`: bytes that are the UTF-8 form of a text, which is what can be decoded;
  `Utf8.BeginsChar`: bytes with which the encoding of a character begins.
* `Utf8.beginsChar_cons_iff`: by the table, these are a first byte and bytes in the first of the
  ranges that it sets.
* `Utf8.readChar_of_incomplete`, `Utf8.readChar_of_invalid`: what stands where no character can be
  read, by how the reading ends.
* `Utf8.DecodeError.Exact`: what a fault says of some bytes; `Utf8.exact_of_decode`: the decoder's
  faults say so.
-/

namespace LineSearch.Utf8

variable {b x : UInt8} {bytes front more rest : List UInt8} {ranges done left : List ByteRange}
  {range : ByteRange} {value seen length n : Nat} {c : Char} {cs ds : List Char}
  {fault : DecodeError}

/-- The bytes are the UTF-8 form of a text. -/
def IsText (bytes : List UInt8) : Prop :=
  ∃ s : String, bytes = encoding s

/-- The encoding of some character begins with the bytes. -/
def BeginsChar (bytes : List UInt8) : Prop :=
  ∃ c : Char, bytes <+: String.utf8EncodeChar c

theorem isText_iff : IsText bytes ↔ ∃ cs : List Char, bytes = cs.flatMap String.utf8EncodeChar := by
  constructor
  · rintro ⟨s, rfl⟩
    exact ⟨s.toList, encoding_eq s⟩
  · rintro ⟨cs, rfl⟩
    exact ⟨String.ofList cs, by rw [encoding_eq, String.toList_ofList]⟩

/-- Decoding fails exactly on bytes that are no text. -/
theorem exists_decode_eq_error_iff : (∃ fault, decode bytes = .error fault) ↔ ¬ IsText bytes := by
  rw [isText_iff]
  simp only [← decode_eq_ok_iff]
  cases decode bytes <;> simp

/-! ## The beginning of a character -/

/-- No first byte asks for more than three bytes, and each range that it sets has a byte. -/
theorem ranges_of_lead (h : lead b = some (value, ranges)) :
    ranges.length ≤ 3 ∧ ∀ range ∈ ranges, range.contains range.first = true := by
  have htail : tail.contains tail.first = true := by decide
  have hsecond : (second b).contains (second b).first = true := by
    unfold second
    split_ifs <;> decide
  rw [lead_eq] at h
  split_ifs at h <;> obtain ⟨rfl, rfl⟩ := Prod.mk.inj (Option.some.inj h) <;>
    simp [htail, hsecond]

/-- Bytes in a row of ranges lie in two rows, where they are cut. -/
theorem Continues.split (h : Continues ranges (front ++ more)) :
    ∃ done left, ranges = done ++ left ∧ Continues done front ∧ Continues left more := by
  induction front generalizing ranges with
  | nil => exact ⟨[], ranges, rfl, .nil, h⟩
  | cons b front ih =>
    cases h with
    | cons hb hmore =>
      obtain ⟨done, left, rfl, hdone, hleft⟩ := ih hmore
      exact ⟨_ :: done, left, rfl, .cons hb hdone, hleft⟩

theorem Continues.append (h : Continues done front) (h' : Continues left more) :
    Continues (done ++ left) (front ++ more) := by
  induction h with
  | nil => exact h'
  | cons hb _ ih => exact .cons hb ih

theorem continues_first (h : ∀ range ∈ left, range.contains range.first = true) :
    Continues left (left.map ByteRange.first) := by
  induction left with
  | nil => exact .nil
  | cons range left ih =>
    have hleft := ih fun r hr => h r (List.mem_cons_of_mem _ hr)
    exact .cons (h range List.mem_cons_self) hleft

/-- What has begun can be completed by the first byte of each range that is left. -/
theorem encode_of_continues (hlead : lead b = some (value, done ++ left))
    (h : Continues done more) :
    ∃ c, String.utf8EncodeChar c = b :: more ++ left.map ByteRange.first := by
  have hfirst : ∀ range ∈ left, range.contains range.first = true :=
    fun range hr => (ranges_of_lead hlead).2 range (List.mem_append_right _ hr)
  have hall := h.append (continues_first hfirst)
  have hforms : Forms (b :: (more ++ left.map ByteRange.first)) _ :=
    ⟨b, _, value, _, rfl, hlead, hall, rfl⟩
  exact ⟨_, hforms.eq_encode.symm⟩

/-- **The beginning of a character** is a first byte and bytes in the first of its ranges. -/
theorem beginsChar_cons_iff : BeginsChar (b :: more) ↔
    ∃ value done left, lead b = some (value, done ++ left) ∧ Continues done more := by
  constructor
  · rintro ⟨c, rest, hc⟩
    obtain ⟨b', more', value, ranges, hencode, hlead, hranges, -⟩ := forms_encode c
    rw [← hc, List.cons_append] at hencode
    obtain ⟨rfl, rfl⟩ := List.cons.inj hencode
    obtain ⟨done, left, rfl, hdone, -⟩ := hranges.split
    exact ⟨value, done, left, hlead, hdone⟩
  · rintro ⟨value, done, left, hlead, hdone⟩
    obtain ⟨c, hc⟩ := encode_of_continues hlead hdone
    exact ⟨c, _, hc.symm⟩

/-! ## Where no character can be read -/

theorem follow_of_incomplete (h : follow value seen ranges bytes = .incomplete) :
    ∃ done range left, ranges = done ++ range :: left ∧ Continues done bytes := by
  fun_induction follow value seen ranges bytes with
  | case1 => cases h
  | case2 value seen range ranges => exact ⟨[], range, ranges, rfl, .nil⟩
  | case3 value seen range ranges b bytes hb ih =>
    obtain ⟨done, next, left, rfl, hdone⟩ := ih h
    exact ⟨range :: done, next, left, rfl, .cons hb hdone⟩
  | case4 => cases h

theorem follow_of_invalid (h : follow value seen ranges bytes = .invalid length) :
    ∃ done range left front x rest, ranges = done ++ range :: left ∧ bytes = front ++ x :: rest ∧
      Continues done front ∧ range.contains x ≠ true ∧ length = seen + front.length := by
  fun_induction follow value seen ranges bytes with
  | case1 => cases h
  | case2 => cases h
  | case3 value seen range ranges b bytes hb ih =>
    obtain ⟨done, next, left, front, x, rest, rfl, rfl, hdone, hx, rfl⟩ := ih h
    refine ⟨range :: done, next, left, b :: front, x, rest, rfl, rfl, .cons hb hdone, hx, ?_⟩
    rw [List.length_cons]
    omega
  | case4 value seen range ranges b bytes hb =>
    cases h
    exact ⟨[], range, ranges, [], b, bytes, rfl, rfl, .nil, hb, rfl⟩

/-- **An incomplete character** is one that some bytes more would complete. -/
theorem readChar_of_incomplete (h : readChar b rest = .incomplete) :
    ∃ c more, more ≠ [] ∧ String.utf8EncodeChar c = b :: rest ++ more := by
  unfold readChar at h
  split at h
  · cases h
  rename_i value ranges hlead
  obtain ⟨done, range, left, rfl, hdone⟩ := follow_of_incomplete h
  obtain ⟨c, hc⟩ := encode_of_continues hlead hdone
  exact ⟨c, _, by simp, hc⟩

/-- The sizes of the front parts of some bytes that begin a character. -/
def beginnings (bytes : List UInt8) : Set Nat :=
  {n | n ≤ bytes.length ∧ BeginsChar (bytes.take n)}

theorem beginsChar_nil : BeginsChar [] :=
  ⟨'a', List.nil_prefix⟩

/-- Behind the beginning of a character, a byte out of the next range ends it. -/
theorem not_beginsChar (hlead : lead b = some (value, done ++ range :: left))
    (hdone : Continues done front) (hx : range.contains x ≠ true) :
    ¬ BeginsChar (b :: (front ++ x :: rest)) := by
  intro h
  obtain ⟨value', done', left', hlead', hdone'⟩ := beginsChar_cons_iff.1 h
  obtain ⟨done₁, done₂, rfl, h₁, h₂⟩ := hdone'.split
  obtain ⟨_, hranges⟩ := Prod.mk.inj (Option.some.inj (hlead.symm.trans hlead'))
  have hlen : done.length = done₁.length := by rw [hdone.length_eq, h₁.length_eq]
  rw [List.append_assoc] at hranges
  obtain ⟨-, hnext⟩ := List.append_inj hranges hlen
  cases h₂ with
  | cons hx' _ =>
    obtain ⟨rfl, -⟩ := List.cons.inj hnext
    exact hx hx'

/-- **Bytes that go wrong** go wrong after the longest of their front parts that begins a
character; a single byte goes wrong where there is none. -/
theorem readChar_of_invalid (h : readChar b rest = .invalid length) :
    (∃ k, IsGreatest (beginnings (b :: rest)) k ∧ length = max 1 k) ∧ 1 ≤ length ∧ length ≤ 3 ∧
      ¬ BeginsChar (b :: rest) := by
  unfold readChar at h
  split at h
  · -- no character begins with the first byte
    rename_i hlead
    cases h
    have hnone : ∀ more, ¬ BeginsChar (b :: more) := by
      intro more hbegins
      obtain ⟨value, done, left, hsome, -⟩ := beginsChar_cons_iff.1 hbegins
      rw [hlead] at hsome
      cases hsome
    refine ⟨⟨0, ⟨⟨Nat.zero_le _, beginsChar_nil⟩, ?_⟩, rfl⟩, by omega, by omega, hnone rest⟩
    rintro (_ | n) ⟨-, hn⟩
    · exact Nat.le_refl 0
    · exact absurd hn (hnone _)
  · -- the bytes up to the first one out of its range begin a character, and no more than these
    rename_i value ranges hlead
    obtain ⟨done, range, left, front, x, after, rfl, rfl, hdone, hx, rfl⟩ := follow_of_invalid h
    have hlen : done.length = front.length := hdone.length_eq
    have hthree := (ranges_of_lead hlead).1
    rw [List.length_append, List.length_cons] at hthree
    have hbegins : BeginsChar (b :: front) := beginsChar_cons_iff.2 ⟨value, done, _, hlead, hdone⟩
    refine ⟨⟨1 + front.length, ⟨⟨?_, ?_⟩, ?_⟩, by omega⟩, by omega, by omega, ?_⟩
    · simp only [List.length_cons, List.length_append]
      omega
    · rw [Nat.add_comm, List.take_succ_cons, List.take_left']
      · exact hbegins
      · rfl
    · rintro n ⟨hle, hn⟩
      by_contra hlt
      obtain ⟨k, rfl⟩ : ∃ k, n = front.length + (k + 1) + 1 := ⟨n - front.length - 2, by omega⟩
      rw [List.take_succ_cons, List.take_length_add_append, List.take_succ_cons] at hn
      exact not_beginsChar hlead hdone hx hn
    · exact not_beginsChar hlead hdone hx

/-! ## Faults -/

/-- Encodings can be taken off the front of encodings. -/
theorem exists_of_append_eq_flatMap
    (h : cs.flatMap String.utf8EncodeChar ++ rest = ds.flatMap String.utf8EncodeChar) :
    ∃ es : List Char, rest = es.flatMap String.utf8EncodeChar := by
  induction cs generalizing ds with
  | nil => exact ⟨ds, h⟩
  | cons c cs ih =>
    rw [List.flatMap_cons, List.append_assoc] at h
    obtain ⟨b, more, hc⟩ := List.exists_cons_of_ne_nil (String.utf8EncodeChar_ne_nil (c := c))
    rw [hc, List.cons_append] at h
    obtain ⟨d, ds', -, hread⟩ := readChar_of_eq_flatMap h
    have hd := readChar_eq_char_iff.1 hread
    have hc' : readChar b (more ++ (cs.flatMap String.utf8EncodeChar ++ rest)) =
        .char c (cs.flatMap String.utf8EncodeChar ++ rest) :=
      readChar_eq_char_iff.2 (by rw [hc, List.cons_append])
    rw [hread] at hc'
    obtain ⟨-, hmore⟩ := Reading.char.inj hc'
    exact ih hmore.symm

/-- Where the decoder stops, characters end and no other can be read. -/
theorem stop_of_decodeFrom {index : Nat} (h : decodeFrom index bytes = .error fault) :
    ∃ (cs : List Char) (b : UInt8) (rest : List UInt8),
      bytes = cs.flatMap String.utf8EncodeChar ++ b :: rest ∧
      (readChar b rest = .incomplete ∧
          fault = .incomplete (index + (cs.flatMap String.utf8EncodeChar).length) ∨
        ∃ length, readChar b rest = .invalid length ∧
          fault = .invalid (index + (cs.flatMap String.utf8EncodeChar).length) length) := by
  fun_induction decodeFrom index bytes with
  | case1 => cases h
  | case2 index b bytes c rest hread ih =>
    cases hrest : decodeFrom (index + c.utf8Size) rest with
    | ok cs =>
      rw [hrest] at h
      cases h
    | error fault' =>
      rw [hrest] at h
      cases h
      obtain ⟨cs, b', rest', rfl, hstop⟩ := ih hrest
      have hlen : (c :: cs).flatMap String.utf8EncodeChar =
          String.utf8EncodeChar c ++ cs.flatMap String.utf8EncodeChar := List.flatMap_cons
      refine ⟨c :: cs, b', rest', ?_, ?_⟩
      · rw [readChar_eq_char_iff.1 hread, hlen, List.append_assoc]
      · rw [hlen, List.length_append, String.length_utf8EncodeChar, ← Nat.add_assoc]
        exact hstop
  | case3 index b bytes hread =>
    cases h
    exact ⟨[], b, bytes, rfl, .inl ⟨hread, rfl⟩⟩
  | case4 index b bytes length hread =>
    cases h
    exact ⟨[], b, bytes, rfl, .inr ⟨length, hread, rfl⟩⟩

/-- Where no character can be read, the text before is the longest that the bytes begin with. -/
theorem isGreatest_of_not_read (h : ∀ c after, readChar b rest ≠ .char c after) :
    IsGreatest {n | n ≤ (cs.flatMap String.utf8EncodeChar ++ b :: rest).length ∧
      IsText ((cs.flatMap String.utf8EncodeChar ++ b :: rest).take n)}
      (cs.flatMap String.utf8EncodeChar).length := by
  refine ⟨⟨?_, ?_⟩, ?_⟩
  · rw [List.length_append]
    omega
  · rw [List.take_left']
    · exact isText_iff.2 ⟨cs, rfl⟩
    · rfl
  · rintro n ⟨-, hn⟩
    by_contra hlt
    obtain ⟨k, rfl⟩ : ∃ k, n = (cs.flatMap String.utf8EncodeChar).length + (k + 1) :=
      ⟨n - (cs.flatMap String.utf8EncodeChar).length - 1, by omega⟩
    rw [List.take_length_add_append, List.take_succ_cons] at hn
    obtain ⟨ds, hds⟩ := isText_iff.1 hn
    obtain ⟨es, hes⟩ := exists_of_append_eq_flatMap hds
    obtain ⟨c, es', -, hread⟩ := readChar_of_eq_flatMap hes
    -- a character that can be read off some of the rest can be read off all of it
    have hall : b :: rest =
        String.utf8EncodeChar c ++ (es'.flatMap String.utf8EncodeChar ++ rest.drop k) := by
      rw [← List.append_assoc, ← readChar_eq_char_iff.1 hread, List.cons_append,
        List.take_append_drop]
    exact h c _ (readChar_eq_char_iff.2 hall)

/-- Where a fault lies. -/
def DecodeError.index : DecodeError → Nat
  | invalid index _ => index
  | incomplete index => index

/-- **What a fault says** of bytes that are no text. -/
structure DecodeError.Exact (fault : DecodeError) (bytes : List UInt8) : Prop where
  /-- The front part of the bytes before the fault is the longest one that is a text. -/
  index : IsGreatest {n | n ≤ bytes.length ∧ IsText (bytes.take n)} fault.index
  /-- Only bytes that some more would make a text are called incomplete. -/
  incomplete_iff : fault = .incomplete fault.index ↔ ∃ more, more ≠ [] ∧ IsText (bytes ++ more)
  /-- Of all others it tells how many bytes at the fault begin a character, or that there is one
  byte that begins none. -/
  length : ∀ index length, fault = .invalid index length →
    (∃ k, IsGreatest (beginnings (bytes.drop index)) k ∧ length = max 1 k) ∧
      1 ≤ length ∧ length ≤ 3

/-- **The faults of the decoder** say what is wrong. -/
theorem exact_of_decode (h : decode bytes = .error fault) : fault.Exact bytes := by
  obtain ⟨cs, b, rest, rfl, hstop⟩ := stop_of_decodeFrom h
  simp only [Nat.zero_add] at hstop
  rcases hstop with ⟨hread, rfl⟩ | ⟨length, hread, rfl⟩
  · refine ⟨isGreatest_of_not_read fun c after => by rw [hread]; exact Reading.noConfusion, ?_, ?_⟩
    · obtain ⟨c, more, hmore, hc⟩ := readChar_of_incomplete hread
      refine ⟨fun _ => ⟨more, hmore, isText_iff.2 ⟨cs ++ [c], ?_⟩⟩, fun _ => rfl⟩
      rw [List.flatMap_append, List.flatMap_singleton, hc, List.append_assoc]
    · intro index length hfault
      cases hfault
  · obtain ⟨hlength, hone, hthree, hnone⟩ := readChar_of_invalid hread
    refine ⟨isGreatest_of_not_read fun c after => by rw [hread]; exact Reading.noConfusion, ?_, ?_⟩
    · constructor
      · intro hfault
        cases hfault
      · rintro ⟨more, -, htext⟩
        obtain ⟨ds, hds⟩ := isText_iff.1 htext
        rw [List.append_assoc] at hds
        obtain ⟨es, hes⟩ := exists_of_append_eq_flatMap hds
        obtain ⟨c, es', -, hread'⟩ := readChar_of_eq_flatMap hes
        have hc : String.utf8EncodeChar c <+: b :: rest ++ more :=
          ⟨_, (readChar_eq_char_iff.1 hread').symm⟩
        -- the character ends before the bytes do, or goes on with all of them
        rcases List.prefix_or_prefix_of_prefix hc (List.prefix_append _ _) with ⟨after, h⟩ | h
        · rw [readChar_eq_char_iff.2 h.symm] at hread
          cases hread
        · exact absurd ⟨c, h⟩ hnone
    · intro index length' hfault
      cases hfault
      rw [List.drop_left']
      · exact ⟨hlength, hone, hthree⟩
      · rfl

end LineSearch.Utf8
