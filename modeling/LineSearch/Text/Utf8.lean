/-!
# Decoding UTF-8

* `lead`: the bits that a first byte carries and the ranges in which the bytes after it must lie.
* `readChar`: one character off the front of some bytes.
* `decode`: all characters, or the place and kind of the first fault.
* `encoding`: the bytes of a string.

A sequence that goes wrong is as long as the bytes that could still have begun a character;
one that only lacks bytes at the end of the input is incomplete.
-/

namespace LineSearch.Utf8

/-- A range of byte values, both ends included. -/
structure ByteRange where
  first : UInt8
  last : UInt8
  deriving DecidableEq, Repr

def ByteRange.contains (range : ByteRange) (b : UInt8) : Bool :=
  range.first ≤ b && b ≤ range.last

/-- The range of a byte after the first one, where the first byte narrows nothing. -/
def tail : ByteRange := ⟨0x80, 0xBF⟩

/-- The bits that a first byte carries and the ranges of the bytes that must follow it; `none`
for a byte that begins no character. The narrowed ranges leave out overlong forms (`E0`, `F0`),
surrogates (`ED`) and what lies past the last code point (`F4`). -/
def lead (b : UInt8) : Option (Nat × List ByteRange) :=
  if b < 0x80 then some (b.toNat, [])
  else if b < 0xC2 then none
  else if b < 0xE0 then some (b.toNat - 0xC0, [tail])
  else if b = 0xE0 then some (0x0, [⟨0xA0, 0xBF⟩, tail])
  else if b = 0xED then some (0xD, [⟨0x80, 0x9F⟩, tail])
  else if b < 0xF0 then some (b.toNat - 0xE0, [tail, tail])
  else if b = 0xF0 then some (0x0, [⟨0x90, 0xBF⟩, tail, tail])
  else if b < 0xF4 then some (b.toNat - 0xF0, [tail, tail, tail])
  else if b = 0xF4 then some (0x4, [⟨0x80, 0x8F⟩, tail, tail])
  else none

/-- What stands at the front of some bytes. -/
inductive Reading where
  /-- A character, and the bytes after it. -/
  | char (c : Char) (rest : List UInt8)
  /-- The bytes end inside a character. -/
  | incomplete
  /-- The first `length` bytes begin a character that the next byte does not go on with, or
  they are a single byte that begins none. -/
  | invalid (length : Nat)
  deriving DecidableEq, Repr

/-- Reads the bytes that must follow a first byte, `seen` bytes into the character. Each adds
six bits to `value`. -/
def follow (value seen : Nat) : List ByteRange → List UInt8 → Reading
  | [], bytes => .char (Char.ofNat value) bytes
  | _ :: _, [] => .incomplete
  | range :: ranges, b :: bytes =>
    if range.contains b then follow (value * 64 + (b.toNat - 0x80)) (seen + 1) ranges bytes
    else .invalid seen

/-- Reads one character off the bytes `b :: bytes`. -/
def readChar (b : UInt8) (bytes : List UInt8) : Reading :=
  match lead b with
  | none => .invalid 1
  | some (value, ranges) => follow value 1 ranges bytes

theorem length_le_of_follow {value seen : Nat} {ranges : List ByteRange} {bytes rest : List UInt8}
    {c : Char} (h : follow value seen ranges bytes = .char c rest) :
    rest.length ≤ bytes.length := by
  fun_induction follow value seen ranges bytes with
  | case1 => simp_all
  | case2 => simp at h
  | case3 value seen range ranges b bytes hb ih =>
    have := ih h
    simp only [List.length_cons]
    omega
  | case4 => simp at h

/-- A character takes at least one byte. -/
theorem length_le_of_readChar {b : UInt8} {bytes rest : List UInt8} {c : Char}
    (h : readChar b bytes = .char c rest) : rest.length ≤ bytes.length := by
  unfold readChar at h
  split at h
  · simp at h
  · exact length_le_of_follow h

/-- Why some bytes are not UTF-8. `index` is the size of the longest front part that is. -/
inductive DecodeError where
  /-- The `length` bytes at `index` belong to no character. -/
  | invalid (index length : Nat)
  /-- The bytes end inside the character at `index`. -/
  | incomplete (index : Nat)
  deriving DecidableEq, Repr

def DecodeError.message : DecodeError → String
  | .invalid index length => s!"invalid utf-8 sequence of {length} bytes from index {index}"
  | .incomplete index => s!"incomplete utf-8 byte sequence from index {index}"

/-- Decodes bytes of which the first stands at byte `index` of the input. -/
def decodeFrom (index : Nat) (bytes : List UInt8) : Except DecodeError (List Char) :=
  match bytes with
  | [] => .ok []
  | b :: bytes =>
    match _h : readChar b bytes with
    | .char c rest => (decodeFrom (index + c.utf8Size) rest).map (c :: ·)
    | .incomplete => .error (.incomplete index)
    | .invalid length => .error (.invalid index length)
termination_by bytes.length
decreasing_by
  have := length_le_of_readChar _h
  simp only [List.length_cons]
  omega

/-- The characters that some bytes encode, or the first fault in them. -/
def decode (bytes : List UInt8) : Except DecodeError (List Char) :=
  decodeFrom 0 bytes

/-- The UTF-8 form of a string. -/
def encoding (s : String) : List UInt8 :=
  s.toUTF8.data.toList

end LineSearch.Utf8
