import LineSearch.Main
import LineSearch.Session
import LineSearch.Proofs.Derivation
import LineSearch.Proofs.Stops
import LineSearch.Proofs.Paths
import LineSearch.Proofs.Search
import LineSearch.Proofs.Soundness
import LineSearch.Proofs.Longest
import LineSearch.Proofs.ParseTree
import LineSearch.Proofs.Attempts
import LineSearch.Proofs.Noninterference
import LineSearch.Proofs.Boundaries
import LineSearch.Proofs.Repetitions
import LineSearch.Proofs.Reading
import LineSearch.Proofs.Spelling
import LineSearch.Proofs.Balance
import LineSearch.Proofs.Members
import LineSearch.Proofs.CanonicalText
import LineSearch.Proofs.Quoting
import LineSearch.Proofs.Translation
import LineSearch.Proofs.SingleEnded
import LineSearch.Proofs.Utf8
import LineSearch.Proofs.Utf8Fault
import LineSearch.Proofs.FirstLine
import LineSearch.Proofs.ReadToEnd
import LineSearch.Proofs.ExitCode
import LineSearch.Proofs.AtomGroup
import LineSearch.Proofs.GroupNumbers
import LineSearch.Proofs.Shape
import LineSearch.Proofs.Concatenation
import LineSearch.Proofs.ClassContent
import LineSearch.Proofs.Parentheses
import LineSearch.Proofs.Renumbering
import LineSearch.Proofs.CanonicalCaptures
import LineSearch.Proofs.Positions
import LineSearch.Proofs.Scanning
import LineSearch.Proofs.ClassInPlace
import LineSearch.Proofs.ReadingInPlace
