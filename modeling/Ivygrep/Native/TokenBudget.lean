import Ivygrep.Native.Str
import Ivygrep.Native.Usize

/-!
# Token estimates and truncation

`estimate_tokens` of `context.rs` counts runs of characters of one class, and
`truncate_to_token_budget` takes the lines around the one that matches a task best. The words and
symbols of a task, which only choose that line, are parameters.
-/

namespace Ivygrep.Native

/-! ## `estimate_tokens` -/

inductive TokenClass where
  | word
  | space
  | newline
  | asciiOther
  | unicode
deriving DecidableEq, Repr

def tokenClass (c : Char) : TokenClass :=
  if c = '\n' then .newline
  else if isWhitespace c then .space
  else if c.isAlphanum || c = '_' then .word
  else if c.toNat < 0x80 then .asciiOther
  else .unicode

/-- The sums so far, and the current run. -/
structure TokenCount where
  calibrated : Nat
  conservative : Nat
  cls : Option TokenClass
  run : Nat
deriving DecidableEq, Repr

namespace TokenCount

def start : TokenCount := ⟨0, 0, none, 0⟩

/-- What a run adds to the two sums. -/
def flush : Option TokenClass → Nat → Nat × Nat
  | some .word, run => (divCeil run 4, 0)
  | some .space, run => (if 0 < run then 1 else 0, 0)
  | some .newline, run => (run, 0)
  | some .asciiOther, run => (run, 0)
  | some .unicode, run => (0, run)
  | none, _ => (0, 0)

def step (count : TokenCount) (c : Char) : TokenCount :=
  if count.cls = some (tokenClass c) then { count with run := count.run + 1 }
  else
    { calibrated := count.calibrated + (flush count.cls count.run).1
      conservative := count.conservative + (flush count.cls count.run).2
      cls := some (tokenClass c)
      run := 1 }

def finish (count : TokenCount) : Nat :=
  let calibrated := count.calibrated + (flush count.cls count.run).1
  let conservative := count.conservative + (flush count.cls count.run).2
  saturatingAdd (divCeil (saturatingMul calibrated 3) 5) conservative

end TokenCount

def estimateTokens (text : Str) : Nat := (text.foldl TokenCount.step TokenCount.start).finish

/-! ## `truncate_to_token_budget` -/

/-- Trims a preview and reports how many leading lines were removed. -/
def trimLeadingLines (text : Str) : Str × Nat :=
  (Str.trim text, (text.takeWhile isWhitespace).count '\n')

/-- What is looked for in the lines of a text: `significant_task_terms` and `task_symbols`. -/
structure TaskWords where
  terms : List Str
  symbols : List Str

namespace TaskWords

def score (words : TaskWords) (line : Str) : Nat :=
  let lower := Str.toAsciiLowercase line
  (if words.symbols.any (Str.contains lower <| Str.toAsciiLowercase ·) then 100 else 0) +
    ((words.terms.filter (Str.contains lower ·)).map Str.len).sum

/-- The earliest of the lines with the highest score, with that score. -/
def bestLine (words : TaskWords) : List Str → Option (Nat × Nat)
  | [] => none
  | line :: lines =>
    match words.bestLine lines with
    | none => some (0, words.score line)
    | some (index, score) =>
      if score ≤ words.score line then some (0, words.score line) else some (index + 1, score)

def focus (words : TaskWords) (lines : List Str) : Nat :=
  ((words.bestLine lines).map Prod.fst).getD (lines.length / 2)

end TaskWords

/-- The longest beginning of a line within the budget. -/
def linePrefix (budget : Nat) (output : Str) : Str → Str
  | [] => output
  | c :: rest =>
    if budget < estimateTokens (output ++ [c]) then output else linePrefix budget (output ++ [c]) rest

def joinRange (lines : List Str) (first last : Nat) : Str :=
  Str.join ['\n'] ((lines.take last).drop first)

/-- One round: a line after the range, then a line before it, if they fit. -/
def widenOnce (lines : List Str) (budget : Nat) (range : Nat × Nat) : Nat × Nat :=
  let last :=
    if range.2 < lines.length ∧ estimateTokens (joinRange lines range.1 (range.2 + 1)) ≤ budget then
      range.2 + 1
    else range.2
  let first :=
    if 0 < range.1 ∧ estimateTokens (joinRange lines (range.1 - 1) last) ≤ budget then range.1 - 1
    else range.1
  (first, last)

/-- The loop, for as many rounds as there are lines. -/
def widen (lines : List Str) (budget : Nat) : Nat → Nat × Nat → Nat × Nat
  | 0, range => range
  | rounds + 1, range =>
    if widenOnce lines budget range = range then range
    else widen lines budget rounds (widenOnce lines budget range)

/-- The preview, whether it was shortened, and how many lines are missing before it. -/
def truncateToTokenBudget (words : TaskWords) (text : Str) (budget : Nat) : Str × Bool × Nat :=
  if (Str.trim text).isEmpty then ([], false, 0)
  else if estimateTokens text ≤ budget then
    ((trimLeadingLines text).1, false, (trimLeadingLines text).2)
  else
    let lines := Str.lines text
    let focus := words.focus lines
    if budget < estimateTokens (lines.getD focus []) then
      (Str.trim (linePrefix budget [] (lines.getD focus [])), true, focus)
    else
      let range := widen lines budget lines.length (focus, min (focus + 1) lines.length)
      let trimmed := trimLeadingLines (joinRange lines range.1 range.2)
      (trimmed.1, true, range.1 + trimmed.2)

end Ivygrep.Native
