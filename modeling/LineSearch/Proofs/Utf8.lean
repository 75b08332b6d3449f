import Mathlib.Data.List.Forall2
import LineSearch.Text.Utf8

/-!
# The decoder reads what the encoding of characters writes

* `Utf8.encoding_eq`: the UTF-8 form of a string, as the encodings of its characters.
* `Utf8.Forms`: bytes that form a character by the table of first bytes and ranges.
* `Utf8.Forms.eq_encode`, `Utf8.forms_encode`: these bytes are the encoding of the character.
* `Utf8.readChar_eq_char_iff`: a character is read off some bytes exactly if they begin with its
  encoding.
* `Utf8.decode_eq_ok_iff`: decoding gives some characters exactly if the bytes are their encodings,
  one after another.

The decoder has a table of first bytes, the encoding a formula for each number of bytes. They meet
in four lemmas, one for each number of bytes: the narrowed ranges of the table are what keeps a
number out of reach of a shorter formula, off the surrogates and within the last code point.
-/

namespace LineSearch.Utf8

theorem encoding_eq (s : String) : encoding s = s.toList.flatMap String.utf8EncodeChar := by
  have h : s.toByteArray = s.toList.utf8Encode := String.utf8Encode_toList.symm
  rw [encoding, String.toUTF8_eq_toByteArray, h, List.utf8Encode, List.toList_data_toByteArray]

/-! ## Bytes in ranges -/

theorem ByteRange.contains_iff {range : ByteRange} {b : UInt8} :
    range.contains b = true ↔
      range.first.toNat ≤ b.toNat ∧ b.toNat ≤ range.last.toNat := by
  simp only [ByteRange.contains, Bool.and_eq_true, decide_eq_true_eq, UInt8.le_iff_toNat_le]

theorem tail_contains_iff {b : UInt8} :
    tail.contains b = true ↔ 0x80 ≤ b.toNat ∧ b.toNat ≤ 0xBF :=
  ByteRange.contains_iff

/-- Bytes of which each lies in the range for its place. -/
def Continues (ranges : List ByteRange) (bytes : List UInt8) : Prop :=
  List.Forall₂ (fun range b => range.contains b = true) ranges bytes

@[simp] theorem continues_nil {bytes : List UInt8} : Continues [] bytes ↔ bytes = [] :=
  List.forall₂_nil_left_iff

theorem continues_cons {range : ByteRange} {ranges : List ByteRange} {bytes : List UInt8} :
    Continues (range :: ranges) bytes ↔
      ∃ b more, bytes = b :: more ∧ range.contains b = true ∧ Continues ranges more := by
  unfold Continues
  rw [List.forall₂_cons_left_iff]
  constructor
  · rintro ⟨b, more, hb, hmore, rfl⟩
    exact ⟨b, more, rfl, hb, hmore⟩
  · rintro ⟨b, more, rfl, hb, hmore⟩
    exact ⟨b, more, hb, hmore, rfl⟩

/-- What a number becomes when every further byte adds six bits to it. -/
def addBits (value : Nat) (bytes : List UInt8) : Nat :=
  bytes.foldl (fun value b => value * 64 + (b.toNat - 0x80)) value

@[simp] theorem addBits_nil (value : Nat) : addBits value [] = value := rfl

@[simp] theorem addBits_cons (value : Nat) (b : UInt8) (bytes : List UInt8) :
    addBits value (b :: bytes) = addBits (value * 64 + (b.toNat - 0x80)) bytes := by
  unfold addBits
  rw [List.foldl_cons]

/-- **A character is completed** exactly by one byte in each of the ranges. -/
theorem follow_eq_char_iff {value seen : Nat} {ranges : List ByteRange}
    {bytes rest : List UInt8} {c : Char} :
    follow value seen ranges bytes = .char c rest ↔
      ∃ more, bytes = more ++ rest ∧ Continues ranges more ∧ c = Char.ofNat (addBits value more) := by
  fun_induction follow value seen ranges bytes with
  | case1 value seen bytes =>
    simp only [Reading.char.injEq, continues_nil]
    constructor
    · rintro ⟨rfl, rfl⟩
      exact ⟨[], rfl, rfl, rfl⟩
    · rintro ⟨_, rfl, rfl, rfl⟩
      exact ⟨rfl, rfl⟩
  | case2 value seen range ranges =>
    simp only [reduceCtorEq, false_iff]
    rintro ⟨_, hbytes, hmore, -⟩
    obtain ⟨b, more, rfl, -⟩ := continues_cons.1 hmore
    simp at hbytes
  | case3 value seen range ranges b bytes hb ih =>
    rw [ih]
    constructor
    · rintro ⟨more, rfl, hmore, rfl⟩
      exact ⟨b :: more, rfl, .cons hb hmore, by rw [addBits_cons]⟩
    · rintro ⟨_, hbytes, hfirst, rfl⟩
      obtain ⟨b', more, rfl, -, hmore⟩ := continues_cons.1 hfirst
      obtain ⟨rfl, rfl⟩ := List.cons.inj hbytes
      exact ⟨more, rfl, hmore, by rw [addBits_cons]⟩
  | case4 value seen range ranges b bytes hb =>
    simp only [reduceCtorEq, false_iff]
    rintro ⟨_, hbytes, hmore, -⟩
    obtain ⟨b', more, rfl, hb', -⟩ := continues_cons.1 hmore
    obtain ⟨rfl, -⟩ := List.cons.inj hbytes
    exact hb hb'

/-! ## The rows of the table by number of bytes -/

/-- The range of the byte after a first one. Four first bytes narrow it. -/
def second (b : UInt8) : ByteRange :=
  if b.toNat = 0xE0 then ⟨0xA0, 0xBF⟩
  else if b.toNat = 0xED then ⟨0x80, 0x9F⟩
  else if b.toNat = 0xF0 then ⟨0x90, 0xBF⟩
  else if b.toNat = 0xF4 then ⟨0x80, 0x8F⟩
  else tail

theorem lead_eq (b : UInt8) :
    lead b =
      if b.toNat < 0x80 then some (b.toNat, [])
      else if b.toNat < 0xC2 then none
      else if b.toNat < 0xE0 then some (b.toNat - 0xC0, [tail])
      else if b.toNat < 0xF0 then some (b.toNat - 0xE0, [second b, tail])
      else if b.toNat < 0xF5 then some (b.toNat - 0xF0, [second b, tail, tail])
      else none := by
  unfold lead second
  simp only [UInt8.lt_iff_toNat_lt, ← UInt8.toNat_inj, UInt8.reduceToNat]
  grind

/-- Of three bytes, the second one is where no fewer bytes would do and off the surrogates. -/
theorem second_contains_three_iff {b d : UInt8} {n e : Nat} (hb : 0xE0 ≤ b.toNat ∧ b.toNat < 0xF0)
    (hn : n = ((b.toNat - 0xE0) * 64 + (d.toNat - 0x80)) * 64 + e) (he : e < 64) :
    (second b).contains d = true ↔ tail.contains d = true ∧ 0x800 ≤ n ∧ n.isValidChar := by
  rw [ByteRange.contains_iff, tail_contains_iff]
  unfold second Nat.isValidChar
  split_ifs <;> simp only [tail, UInt8.reduceToNat] <;> omega

/-- Of four bytes, the second one is where no fewer bytes would do and within the last code
point. -/
theorem second_contains_four_iff {b d : UInt8} {n e : Nat} (hb : 0xF0 ≤ b.toNat ∧ b.toNat < 0xF5)
    (hn : n = ((b.toNat - 0xF0) * 64 + (d.toNat - 0x80)) * 4096 + e) (he : e < 4096) :
    (second b).contains d = true ↔ tail.contains d = true ∧ 0x10000 ≤ n ∧ n.isValidChar := by
  rw [ByteRange.contains_iff, tail_contains_iff]
  unfold second Nat.isValidChar
  split_ifs <;> simp only [tail, UInt8.reduceToNat] <;> omega

/-! ## The formulas of the encoding by number of bytes -/

section Formulas

variable {c : Char} {b₁ b₂ b₃ b₄ : UInt8}

theorem ofNat_eq {n : Nat} {b : UInt8} (h : n = b.toNat) : UInt8.ofNat n = b := by
  rw [h, UInt8.ofNat_toNat]

theorem encode_one (hc : c.toNat = b₁.toNat) (h₁ : b₁.toNat < 0x80) :
    String.utf8EncodeChar c = [b₁] := by
  have hv : c.val.toNat = b₁.toNat := hc
  simp only [String.utf8EncodeChar, hv]
  rw [if_pos (by omega), ofNat_eq rfl]

theorem encode_two (hc : c.toNat = (b₁.toNat - 0xC0) * 64 + (b₂.toNat - 0x80))
    (h₁ : 0xC2 ≤ b₁.toNat ∧ b₁.toNat < 0xE0) (h₂ : tail.contains b₂ = true) :
    String.utf8EncodeChar c = [b₁, b₂] := by
  have hv : c.val.toNat = c.toNat := rfl
  rw [tail_contains_iff] at h₂
  simp only [String.utf8EncodeChar, hv]
  rw [if_neg (by omega), if_pos (by omega), ofNat_eq (b := b₁) (by omega),
    ofNat_eq (b := b₂) (by omega)]

theorem encode_three
    (hc : c.toNat = ((b₁.toNat - 0xE0) * 64 + (b₂.toNat - 0x80)) * 64 + (b₃.toNat - 0x80))
    (h₁ : 0xE0 ≤ b₁.toNat ∧ b₁.toNat < 0xF0) (h₂ : tail.contains b₂ = true)
    (h₃ : tail.contains b₃ = true) (hlong : 0x800 ≤ c.toNat) :
    String.utf8EncodeChar c = [b₁, b₂, b₃] := by
  have hv : c.val.toNat = c.toNat := rfl
  rw [tail_contains_iff] at h₂ h₃
  simp only [String.utf8EncodeChar, hv]
  rw [if_neg (by omega), if_neg (by omega), if_pos (by omega), ofNat_eq (b := b₁) (by omega),
    ofNat_eq (b := b₂) (by omega), ofNat_eq (b := b₃) (by omega)]

theorem encode_four
    (hc : c.toNat =
      (((b₁.toNat - 0xF0) * 64 + (b₂.toNat - 0x80)) * 64 + (b₃.toNat - 0x80)) * 64 +
        (b₄.toNat - 0x80))
    (h₁ : 0xF0 ≤ b₁.toNat ∧ b₁.toNat < 0xF5) (h₂ : tail.contains b₂ = true)
    (h₃ : tail.contains b₃ = true) (h₄ : tail.contains b₄ = true) (hlong : 0x10000 ≤ c.toNat) :
    String.utf8EncodeChar c = [b₁, b₂, b₃, b₄] := by
  have hv : c.val.toNat = c.toNat := rfl
  rw [tail_contains_iff] at h₂ h₃ h₄
  simp only [String.utf8EncodeChar, hv]
  rw [if_neg (by omega), if_neg (by omega), if_neg (by omega), ofNat_eq (b := b₁) (by omega),
    ofNat_eq (b := b₂) (by omega), ofNat_eq (b := b₃) (by omega), ofNat_eq (b := b₄) (by omega)]

end Formulas

/-! ## One character -/

/-- Bytes that form a character by the table: a first byte and one byte in each range that it sets,
which together carry the number of the character. -/
def Forms (bytes : List UInt8) (c : Char) : Prop :=
  ∃ b more value ranges, bytes = b :: more ∧ lead b = some (value, ranges) ∧
    Continues ranges more ∧ c = Char.ofNat (addBits value more)

theorem readChar_eq_char_iff_forms {b : UInt8} {bytes rest : List UInt8} {c : Char} :
    readChar b bytes = .char c rest ↔ ∃ front, b :: bytes = front ++ rest ∧ Forms front c := by
  constructor
  · intro h
    unfold readChar at h
    split at h
    · cases h
    · next value ranges hlead =>
      obtain ⟨more, rfl, hmore, hc⟩ := follow_eq_char_iff.1 h
      exact ⟨b :: more, rfl, b, more, value, ranges, rfl, hlead, hmore, hc⟩
  · rintro ⟨_, hbytes, b', more, value, ranges, rfl, hlead, hmore, hc⟩
    obtain ⟨rfl, rfl⟩ := List.cons.inj hbytes
    simp only [readChar, hlead]
    exact follow_eq_char_iff.2 ⟨more, rfl, hmore, hc⟩

theorem toNat_ofNat {n : Nat} (h : n.isValidChar) : (Char.ofNat n).toNat = n := by
  rw [Char.ofNat, dif_pos h]
  rfl

/-- **What the table allows is an encoding.** -/
theorem Forms.eq_encode {bytes : List UInt8} {c : Char} (h : Forms bytes c) :
    bytes = String.utf8EncodeChar c := by
  obtain ⟨b, more, value, ranges, rfl, hlead, hmore, rfl⟩ := h
  generalize hn : addBits value more = n
  symm
  rw [lead_eq] at hlead
  split_ifs at hlead <;> obtain ⟨rfl, rfl⟩ := Prod.mk.inj (Option.some.inj hlead) <;>
    simp only [continues_cons, continues_nil] at hmore
  · subst hmore
    rw [addBits_nil] at hn
    have hc : (Char.ofNat n).toNat = n := toNat_ofNat (by unfold Nat.isValidChar; omega)
    exact encode_one (by omega) (by omega)
  · obtain ⟨b₂, _, rfl, h₂, rfl⟩ := hmore
    rw [addBits_cons, addBits_nil] at hn
    have hb₂ := tail_contains_iff.1 h₂
    have hc : (Char.ofNat n).toNat = n := toNat_ofNat (by unfold Nat.isValidChar; omega)
    exact encode_two (by omega) (by omega) h₂
  · obtain ⟨b₂, _, rfl, h₂, b₃, _, rfl, h₃, rfl⟩ := hmore
    rw [addBits_cons, addBits_cons, addBits_nil] at hn
    have hb₃ := tail_contains_iff.1 h₃
    have he : b₃.toNat - 0x80 < 64 := by omega
    obtain ⟨h₂, hlong, hvalid⟩ := (second_contains_three_iff (by omega) hn.symm he).1 h₂
    have hc := toNat_ofNat hvalid
    exact encode_three (by omega) (by omega) h₂ h₃ (by omega)
  · obtain ⟨b₂, _, rfl, h₂, b₃, _, rfl, h₃, b₄, _, rfl, h₄, rfl⟩ := hmore
    rw [addBits_cons, addBits_cons, addBits_cons, addBits_nil] at hn
    have hb₃ := tail_contains_iff.1 h₃
    have hb₄ := tail_contains_iff.1 h₄
    have he : (b₃.toNat - 0x80) * 64 + (b₄.toNat - 0x80) < 4096 := by omega
    obtain ⟨h₂, hlong, hvalid⟩ :=
      (second_contains_four_iff (n := n) (by omega) (by omega) he).1 h₂
    have hc := toNat_ofNat hvalid
    exact encode_four (by omega) (by omega) h₂ h₃ h₄ (by omega)

theorem exists_byte {n : Nat} (h : n < 256) : ∃ b : UInt8, b.toNat = n :=
  ⟨UInt8.ofNat n, UInt8.toNat_ofNat_of_lt h⟩

/-- The byte that carries six bits of a number. -/
theorem exists_tail (n : Nat) :
    ∃ b : UInt8, b.toNat = n % 64 + 0x80 ∧ tail.contains b = true := by
  obtain ⟨b, hb⟩ := exists_byte (n := n % 64 + 0x80) (by omega)
  exact ⟨b, hb, tail_contains_iff.2 (by omega)⟩

section Encoded

variable {c : Char}

theorem forms_of_lead {b : UInt8} {more : List UInt8} {value : Nat} {ranges : List ByteRange}
    (hencode : String.utf8EncodeChar c = b :: more) (hlead : lead b = some (value, ranges))
    (hmore : Continues ranges more) (hc : addBits value more = c.toNat) :
    Forms (String.utf8EncodeChar c) c :=
  ⟨b, more, value, ranges, hencode, hlead, hmore, by rw [hc, Char.ofNat_toNat]⟩

theorem forms_one (h : c.toNat < 0x80) : Forms (String.utf8EncodeChar c) c := by
  obtain ⟨b₁, hb₁⟩ := exists_byte (n := c.toNat) (by omega)
  have hlead : lead b₁ = some (b₁.toNat, []) := by rw [lead_eq, if_pos (by omega)]
  exact forms_of_lead (encode_one hb₁.symm (by omega)) hlead .nil hb₁

theorem forms_two (hlong : 0x80 ≤ c.toNat) (h : c.toNat < 0x800) :
    Forms (String.utf8EncodeChar c) c := by
  obtain ⟨b₁, hb₁⟩ := exists_byte (n := c.toNat / 64 + 0xC0) (by omega)
  obtain ⟨b₂, hb₂, h₂⟩ := exists_tail c.toNat
  have hlead : lead b₁ = some (b₁.toNat - 0xC0, [tail]) := by
    rw [lead_eq, if_neg (by omega), if_neg (by omega), if_pos (by omega)]
  apply forms_of_lead (encode_two (by omega) (by omega) h₂) hlead (.cons h₂ .nil)
  rw [addBits_cons, addBits_nil]
  omega

theorem forms_three (hlong : 0x800 ≤ c.toNat) (h : c.toNat < 0x10000) :
    Forms (String.utf8EncodeChar c) c := by
  have hvalid : c.toNat.isValidChar := c.valid
  obtain ⟨b₁, hb₁⟩ := exists_byte (n := c.toNat / 4096 + 0xE0) (by omega)
  obtain ⟨b₂, hb₂, h₂⟩ := exists_tail (c.toNat / 64)
  obtain ⟨b₃, hb₃, h₃⟩ := exists_tail c.toNat
  have hlead : lead b₁ = some (b₁.toNat - 0xE0, [second b₁, tail]) := by
    rw [lead_eq, if_neg (by omega), if_neg (by omega), if_neg (by omega), if_pos (by omega)]
  have hc : c.toNat =
      ((b₁.toNat - 0xE0) * 64 + (b₂.toNat - 0x80)) * 64 + (b₃.toNat - 0x80) := by omega
  have hsecond : (second b₁).contains b₂ = true :=
    (second_contains_three_iff (by omega) hc (by omega)).2 ⟨h₂, hlong, hvalid⟩
  apply forms_of_lead (encode_three hc (by omega) h₂ h₃ hlong) hlead (.cons hsecond (.cons h₃ .nil))
  rw [addBits_cons, addBits_cons, addBits_nil, hc]

theorem forms_four (hlong : 0x10000 ≤ c.toNat) : Forms (String.utf8EncodeChar c) c := by
  have hvalid : c.toNat.isValidChar := c.valid
  have hlast : c.toNat < 0x110000 := by
    unfold Nat.isValidChar at hvalid
    omega
  obtain ⟨b₁, hb₁⟩ := exists_byte (n := c.toNat / 262144 + 0xF0) (by omega)
  obtain ⟨b₂, hb₂, h₂⟩ := exists_tail (c.toNat / 4096)
  obtain ⟨b₃, hb₃, h₃⟩ := exists_tail (c.toNat / 64)
  obtain ⟨b₄, hb₄, h₄⟩ := exists_tail c.toNat
  have hlead : lead b₁ = some (b₁.toNat - 0xF0, [second b₁, tail, tail]) := by
    rw [lead_eq, if_neg (by omega), if_neg (by omega), if_neg (by omega), if_neg (by omega),
      if_pos (by omega)]
  have hc : c.toNat = (((b₁.toNat - 0xF0) * 64 + (b₂.toNat - 0x80)) * 64 + (b₃.toNat - 0x80)) * 64 +
      (b₄.toNat - 0x80) := by omega
  have hsecond : (second b₁).contains b₂ = true :=
    (second_contains_four_iff (n := c.toNat) (e := c.toNat % 4096) (by omega) (by omega)
      (by omega)).2 ⟨h₂, hlong, hvalid⟩
  apply forms_of_lead (encode_four hc (by omega) h₂ h₃ h₄ hlong) hlead
    (.cons hsecond (.cons h₃ (.cons h₄ .nil)))
  rw [addBits_cons, addBits_cons, addBits_cons, addBits_nil, hc]

/-- **Every encoding is in the table.** -/
theorem forms_encode (c : Char) : Forms (String.utf8EncodeChar c) c := by
  by_cases hone : c.toNat < 0x80
  · exact forms_one hone
  by_cases htwo : c.toNat < 0x800
  · exact forms_two (by omega) htwo
  by_cases hthree : c.toNat < 0x10000
  · exact forms_three (by omega) hthree
  · exact forms_four (by omega)

end Encoded

/-- **Reading one character** succeeds exactly on the bytes that begin with its encoding. -/
theorem readChar_eq_char_iff {b : UInt8} {bytes rest : List UInt8} {c : Char} :
    readChar b bytes = .char c rest ↔ b :: bytes = String.utf8EncodeChar c ++ rest := by
  rw [readChar_eq_char_iff_forms]
  constructor
  · rintro ⟨front, hbytes, hfront⟩
    rw [hbytes, hfront.eq_encode]
  · intro hbytes
    exact ⟨_, hbytes, forms_encode c⟩

/-! ## All characters -/

theorem map_eq_ok_iff {ε α β : Type} {f : α → β} {x : Except ε α} {b : β} :
    x.map f = .ok b ↔ ∃ a, x = .ok a ∧ f a = b := by
  cases x with
  | error e => simp [Except.map]
  | ok a => simp [Except.map]

/-- A character and more of them: the first one can be read off their encodings. -/
theorem readChar_of_eq_flatMap {b : UInt8} {bytes : List UInt8} {cs : List Char}
    (h : b :: bytes = cs.flatMap String.utf8EncodeChar) :
    ∃ c more, cs = c :: more ∧ readChar b bytes = .char c (more.flatMap String.utf8EncodeChar) := by
  cases cs with
  | nil => simp at h
  | cons c more => exact ⟨c, more, rfl, readChar_eq_char_iff.2 (by rw [h, List.flatMap_cons])⟩

theorem decodeFrom_eq_ok_iff {index : Nat} {bytes : List UInt8} {cs : List Char} :
    decodeFrom index bytes = .ok cs ↔ bytes = cs.flatMap String.utf8EncodeChar := by
  fun_induction decodeFrom index bytes generalizing cs with
  | case1 index =>
    cases cs with
    | nil => simp
    | cons c cs => simp [String.utf8EncodeChar_ne_nil]
  | case2 index b bytes c rest hread ih =>
    rw [map_eq_ok_iff]
    constructor
    · rintro ⟨more, hmore, rfl⟩
      rw [readChar_eq_char_iff.1 hread, ih.1 hmore, List.flatMap_cons]
    · intro h
      obtain ⟨c', more, rfl, hread'⟩ := readChar_of_eq_flatMap h
      obtain ⟨rfl, rfl⟩ := Reading.char.inj (hread.symm.trans hread')
      exact ⟨more, ih.2 rfl, rfl⟩
  | case3 index b bytes hread =>
    simp only [reduceCtorEq, false_iff]
    intro h
    obtain ⟨c, more, -, hread'⟩ := readChar_of_eq_flatMap h
    rw [hread] at hread'
    cases hread'
  | case4 index b bytes length hread =>
    simp only [reduceCtorEq, false_iff]
    intro h
    obtain ⟨c, more, -, hread'⟩ := readChar_of_eq_flatMap h
    rw [hread] at hread'
    cases hread'

/-- **Decoding succeeds exactly on encodings**, and gives the characters that were encoded. -/
theorem decode_eq_ok_iff {bytes : List UInt8} {cs : List Char} :
    decode bytes = .ok cs ↔ bytes = cs.flatMap String.utf8EncodeChar :=
  decodeFrom_eq_ok_iff

end LineSearch.Utf8
