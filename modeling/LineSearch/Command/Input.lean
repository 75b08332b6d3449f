import LineSearch.Regex
import LineSearch.Text.Utf8

/-!
# The line to search

* `Input`: what could be read, and what went wrong if reading broke off.
* `Progress.next`: what one more read makes of what was read so far; `readToEnd`: the input that a
  stream holds.
* `Input.firstLine`: the first line as text.
* `search`: whether a pattern matches in it; `searchReads`: the same on a stream.
-/

namespace LineSearch

/-- The bytes that were read, and the reason if reading broke off before the end. -/
structure Input where
  bytes : List UInt8
  failure : Option String
  deriving DecidableEq, Repr

/-! ## Reading a stream -/

/-- What one read from a stream gives. -/
inductive Read where
  /-- One byte or more: a read of none tells the end. -/
  | chunk (first : UInt8) (more : List UInt8)
  /-- Nothing was read, and the read is to be made again. -/
  | interrupted
  | failed (reason : String)
  | ended
  deriving DecidableEq, Repr

/-- How far the reading of a stream has come. -/
inductive Progress where
  /-- There is more to read. The bytes so far are kept with the last one in front. -/
  | reading (reversed : List UInt8)
  | done (input : Input)
  deriving DecidableEq, Repr

namespace Progress

def start : Progress :=
  .reading []

/-- Takes in what one more read gives. -/
def next : Progress → Read → Progress
  | reading reversed, .chunk first more => reading ((first :: more).reverseAux reversed)
  | reading reversed, .interrupted => reading reversed
  | reading reversed, .failed reason => done ⟨reversed.reverse, some reason⟩
  | reading reversed, .ended => done ⟨reversed.reverse, none⟩
  | done input, _ => done input

def input? : Progress → Option Input
  | reading _ => none
  | done input => some input

end Progress

/-- What a stream holds up to its end or to the first failure; `none` where the reads stop short of
both. -/
def readToEnd (reads : List Read) : Option Input :=
  (reads.foldl Progress.next .start).input?

/-! ## The first line -/

/-- Why an input has no first line. -/
inductive InputError where
  | unreadable (reason : String)
  | notUtf8 (fault : Utf8.DecodeError)
  deriving DecidableEq, Repr

def InputError.message : InputError → String
  | unreadable reason => s!"failed to read input: {reason}"
  | notUtf8 fault => s!"input line is not valid UTF-8: {fault.message}"

/-- The bytes before the first newline, or all of them, less one carriage return at their end. -/
def lineBytes (bytes : List UInt8) : List UInt8 :=
  let line := bytes.takeWhile (· != 0x0A)
  if line.getLast? = some 0x0D then line.dropLast else line

/-- The first line of an input. Only this line has to be text, but all of the input has to be
readable. -/
def Input.firstLine (input : Input) : Except InputError String :=
  match input.failure with
  | some reason => .error (.unreadable reason)
  | none =>
    match Utf8.decode (lineBytes input.bytes) with
    | .error fault => .error (.notUtf8 fault)
    | .ok line => .ok (String.ofList line)

/-- Whether a regex matches in the first line of an input. -/
def search (regex : Regex) (input : Input) : Except InputError Bool :=
  input.firstLine.map regex.isMatch

/-- The same on a stream, which is read to its end first. -/
def searchReads (regex : Regex) (reads : List Read) : Option (Except InputError Bool) :=
  (readToEnd reads).map (search regex)

end LineSearch
