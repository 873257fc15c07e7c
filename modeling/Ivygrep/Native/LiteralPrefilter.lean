import Ivygrep.Native.LiteralFiles
import Ivygrep.Native.RegexPrefilter

/-!
# The literal index prefilter

`substring_candidate_runs` of `search.rs` takes from a folded query the runs of letters and digits
that no other character can stand for, and `substring_candidate_query` takes from the runs the
trigrams that a candidate document must have.
-/

namespace Ivygrep.Native

/-- The encoding of a combining dot above. -/
def combiningDot : List UInt8 := Str.bytes ['\u0307']

/-- `safe`: a letter or a digit that a matching line has as well. A `k` may be a Kelvin sign there,
    and an `i` before a combining dot, or at the end of the query, a capital I with dot. -/
def isSafeAt (bytes : List UInt8) (index : Nat) : Bool :=
  match bytes[index]? with
  | none => false
  | some byte =>
    isAsciiAlphanumeric byte && byte != 0x6b &&
      (byte != 0x69 ||
        (index + 1 < bytes.length && !combiningDot.isPrefixOf (bytes.drop (index + 1))))

structure CandidateRuns where
  runs : List Str
  start : Nat

/-- A round of the loop over the bytes: `none` where the run cannot be taken out. -/
def CandidateRuns.visit (queryLower : Str) (state : CandidateRuns) (index : Nat) :
    Option CandidateRuns :=
  if isSafeAt (Str.bytes queryLower) index then some state
  else if 3 ≤ index - state.start then
    (Str.slice queryLower state.start index).map fun run => ⟨state.runs ++ [run], index + 1⟩
  else some { state with start := index + 1 }

/-- `substring_candidate_runs`: the last round is the one after the last byte. -/
def substringCandidateRuns (queryLower : Str) : Option (List Str) :=
  ((List.range ((Str.bytes queryLower).length + 1)).foldlM (CandidateRuns.visit queryLower)
    ⟨[], 0⟩).map CandidateRuns.runs

/-- `substring_candidate_query`: the terms of the clauses. -/
def substringCandidateQuery (runs : List Str) : Option (List Str) := do
  let clauses ← (runs.take 3).mapM fun run =>
    (sampledOffsets run).mapM fun offset => Str.slice run offset (offset + 3)
  if clauses.flatten = [] then none else some clauses.flatten

end Ivygrep.Native
