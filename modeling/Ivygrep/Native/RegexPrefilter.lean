import Ivygrep.Native.Str

/-!
# The regex index prefilter

`required_literal_runs` of `regex_search.rs` takes from a pattern's HIR the literal
fragments that every match must contain, and `AsciiTrigramTokenStream` of `text.rs`
emits the terms under which a document is indexed. `substring_candidate_query` of
`search.rs` joins the two: the candidate documents hold some trigrams of each run.
-/

namespace Ivygrep.Native

/-! ## Bytes -/

/-- `u8::is_ascii_alphanumeric`. -/
def isAsciiAlphanumeric (byte : UInt8) : Bool :=
  (0x30 ≤ byte && byte ≤ 0x39) || (0x41 ≤ byte && byte ≤ 0x5a) || (0x61 ≤ byte && byte ≤ 0x7a)

/-- `char::from` on a byte. -/
def charOfByte (byte : UInt8) : Char := Char.ofNat byte.toNat

/-! ## The HIR -/

/-- `regex_syntax::hir::Class`. -/
inductive HirClass where
  | unicode (ranges : List (Char × Char))
  | bytes (ranges : List (UInt8 × UInt8))
  deriving DecidableEq, Repr

/-- `regex_syntax::hir::Look`. -/
inductive Look where
  | start | «end» | startLF | endLF | startCRLF | endCRLF
  | wordAscii | wordAsciiNegate | wordUnicode | wordUnicodeNegate
  | wordStartAscii | wordEndAscii | wordStartUnicode | wordEndUnicode
  | wordStartHalfAscii | wordEndHalfAscii | wordStartHalfUnicode | wordEndHalfUnicode
  deriving DecidableEq, Repr

/-- `regex_syntax::hir::HirKind`. -/
inductive Hir where
  | empty
  | literal (bytes : List UInt8)
  | class (cls : HirClass)
  | look (look : Look)
  | repetition (min : Nat) (max : Option Nat) (greedy : Bool) (sub : Hir)
  | capture (index : Nat) (name : Option Str) (sub : Hir)
  | concat (subs : List Hir)
  | alternation (subs : List Hir)

/-! ## Required literals -/

mutual

/-- `collect_required_literals`: pushes the literals of the expression; `none` at an
    alternation that a match can reach. -/
def collectRequiredLiterals (literals : List (List UInt8)) : Hir → Option (List (List UInt8))
  | .literal literal => some (literals ++ [literal])
  | .repetition min _ _ sub =>
    if 0 < min then collectRequiredLiterals literals sub else some literals
  | .capture _ _ sub => collectRequiredLiterals literals sub
  | .concat expressions => collectAllRequiredLiterals literals expressions
  | .alternation _ => none
  | .empty | .class _ | .look _ => some literals

/-- The loop of `collect_required_literals` over the parts of a concatenation. -/
def collectAllRequiredLiterals (literals : List (List UInt8)) :
    List Hir → Option (List (List UInt8))
  | [] => some literals
  | expression :: rest =>
    (collectRequiredLiterals literals expression).bind fun literals =>
      collectAllRequiredLiterals literals rest

end

/-- Where `required_literal_runs` splits a literal: Unicode case-insensitive regexes
    also match `K` (Kelvin) for `k` and `ſ` for `s`. -/
def splitsRun (byte : UInt8) : Bool :=
  !isAsciiAlphanumeric byte || byte == 0x6b || byte == 0x4b || byte == 0x73 || byte == 0x53

/-- The runs of one literal. A kept run is ASCII, so `from_utf8_lossy` is exact. -/
def literalRuns (literal : List UInt8) : List Str :=
  ((literal.splitOnP splitsRun).filter fun run =>
    3 ≤ run.length && run.all (· < 0x80)).map fun run =>
      Str.toAsciiLowercase (run.map charOfByte)

/-- `runs.sort_by_key(|run| Reverse(run.len()))`, a stable sort. -/
def sortRuns (runs : List Str) : List Str :=
  runs.insertionSort fun left right => Str.len right ≤ Str.len left

/-- `required_literal_runs`, over the parser of `regex_syntax`. -/
def requiredLiteralRuns (parse : Str → Option Hir) (pattern : Str) : Option (List Str) := do
  let hir ← parse pattern
  let literals ← collectRequiredLiterals [] hir
  let runs := (sortRuns (literals.flatMap literalRuns)).destutter (· ≠ ·)
  if runs.isEmpty then none else some runs

/-! ## Trigram tokens -/

/-- `tantivy::tokenizer::Token`, without the position length. -/
structure Token where
  offsetFrom : Nat
  offsetTo : Nat
  position : Nat
  text : Str
  deriving DecidableEq, Repr

/-- The token at byte `start`. -/
def trigramToken (bytes : List UInt8) (start : Nat) : Token where
  offsetFrom := start
  offsetTo := start + 3
  position := start
  text := Str.toAsciiLowercase (((bytes.drop start).take 3).map charOfByte)

/-- `AsciiTrigramTokenStream::advance`: the next token and the cursor after it. -/
def advance (bytes : List UInt8) (cursor : Nat) : Option (Token × Nat) :=
  if cursor + 3 ≤ bytes.length then
    if ((bytes.drop cursor).take 3).all isAsciiAlphanumeric then
      some (trigramToken bytes cursor, cursor + 1)
    else advance bytes (cursor + 1)
  else none
termination_by bytes.length - cursor

/-- A call of `advance` that finds a token moves the cursor inside the text. -/
theorem advance_cursor {bytes : List UInt8} {cursor : Nat} {token : Token} {next : Nat}
    (h : advance bytes cursor = some (token, next)) : cursor < next ∧ next ≤ bytes.length := by
  fun_induction advance bytes cursor with
  | case1 cursor hroom hall =>
    simp only [Option.some.injEq, Prod.mk.injEq] at h
    omega
  | case2 cursor hroom hall ih =>
    have := ih h
    omega
  | case3 cursor hroom => simp at h

/-- The tokens that a `TokenStream` at this cursor still emits. -/
def tokensFrom (bytes : List UInt8) (cursor : Nat) : List Token :=
  match h : advance bytes cursor with
  | none => []
  | some (token, next) =>
    have := advance_cursor h
    token :: tokensFrom bytes next
termination_by bytes.length - cursor

/-- The tokens that `AsciiTrigramTokenizer` emits on a text. -/
def trigramTokens (text : Str) : List Token := tokensFrom (Str.bytes text) 0

/-! ## The candidate query -/

/-- The byte offsets of a run that `substring_candidate_query` samples, less an offset
    equal to the one before. -/
def sampledOffsets (run : Str) : List Nat :=
  [0, (Str.len run - 3) / 2, Str.len run - 3].destutter (· ≠ ·)

/-- `substring_candidate_query`: the terms that a candidate document must all have.
    A kept run is ASCII, so its characters are its bytes. -/
def substringCandidateTerms (runs : List Str) : List Str :=
  (runs.take 3).flatMap fun run =>
    (sampledOffsets run).map fun offset => (run.drop offset).take 3

/-- The document of this text is a candidate for the runs. -/
def isCandidate (runs : List Str) (text : Str) : Bool :=
  (substringCandidateTerms runs).all fun term =>
    (trigramTokens text).any fun token => token.text == term

end Ivygrep.Native
