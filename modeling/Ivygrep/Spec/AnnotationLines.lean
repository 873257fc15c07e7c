import Ivygrep.Spec.CodeLinesScan

/-!
# Annotations before a declaration

The grammar of what may stand before a declaration, over whole lines or broken into lines, and the
first range of a text of it. The scan works line by line, so each equation moves a place on: by
characters of its line, or over a line break, with what is open carried over.

## Key results

- `visitLine?_brackets`: brackets that are open at the start of a line
- `steps_token`: one token of the arguments
- `steps_prelude`: all that stands before the declaration
- `codeLineRanges_declaration`: the first range
-/

namespace Ivygrep.Native

namespace Str

theorem trimStart_append {text : Str} (h : ¬ ∀ c ∈ text, isWhitespace c = true) (rest : Str) :
    trimStart (text ++ rest) = trimStart text ++ rest := by
  unfold trimStart
  rw [List.dropWhile_append, if_neg]
  rw [List.isEmpty_iff, List.dropWhile_eq_nil_iff]
  exact h

theorem trim_eq_nil {text : Str} (h : ∀ c ∈ text, isWhitespace c = true) : trim text = [] := by
  have hstart : trimStart text = [] := List.dropWhile_eq_nil_iff.mpr h
  rw [trim, hstart]
  rfl

theorem trim_append_blank (text : Str) {blanks : Str}
    (hblanks : ∀ c ∈ blanks, isWhitespace c = true) : trim (text ++ blanks) = trim text := by
  by_cases hall : ∀ c ∈ text, isWhitespace c = true
  · rw [trim_eq_nil hall, trim_eq_nil (List.forall_mem_append.mpr ⟨hall, hblanks⟩)]
  · rw [trim, trimStart_append hall]
    exact trimEnd_blank _ hblanks

theorem trimEnd_trimStart (text : Str) : trimEnd (trimStart text) = trim text := rfl

/-- The two ends may be trimmed in any order. -/
theorem trimStart_trimEnd (text : Str) : trimStart (trimEnd text) = trim text := by
  by_cases hall : ∀ c ∈ text, isWhitespace c = true
  · rw [trim_eq_nil hall, trimEnd, List.rdropWhile_eq_nil_iff.mpr hall]
    rfl
  · have hsplit : text = trimEnd text ++ text.rtakeWhile isWhitespace :=
      List.rdropWhile_append_rtakeWhile.symm
    have hblanks : ∀ c ∈ text.rtakeWhile isWhitespace, isWhitespace c = true :=
      fun c hc => List.mem_rtakeWhile_imp hc
    have hend : trimEnd (trimEnd text) = trimEnd text := List.rdropWhile_idempotent _ _
    have hkept : trim (trimEnd text) = trim text := by
      conv_rhs => rw [hsplit]
      exact (trim_append_blank _ hblanks).symm
    have hne : trimEnd (trimStart (trimEnd text)) ≠ [] := by
      show trim (trimEnd text) ≠ []
      rw [hkept, trim]
      intro hnil
      rw [List.rdropWhile_eq_nil_iff] at hnil
      apply hall
      intro c hc
      rw [← List.takeWhile_append_dropWhile (p := isWhitespace) (l := text), List.mem_append] at hc
      rcases hc with hc | hc
      · exact List.mem_takeWhile_imp hc
      · exact hnil c hc
    -- What is trimmed at the start stands in front of both.
    have hlead := trimEnd_append ((trimEnd text).takeWhile isWhitespace) hne
    rw [trimStart, List.takeWhile_append_dropWhile, hend] at hlead
    rw [← hkept]
    have hboth : (trimEnd text).takeWhile isWhitespace ++ trimStart (trimEnd text) =
        (trimEnd text).takeWhile isWhitespace ++ trim (trimEnd text) := by
      rw [trimStart, List.takeWhile_append_dropWhile]
      exact hlead
    exact List.append_cancel_left hboth

/-- The end of a trimmed text, with blanks behind it. -/
theorem trim_suffix_append (text : Str) {rest blanks : Str} (hrest : rest <:+ trim text)
    (hblanks : ∀ c ∈ blanks, isWhitespace c = true) : trim (rest ++ blanks) = trimStart rest := by
  obtain ⟨front, hfront⟩ := hrest
  have hself : trimEnd rest = rest := by
    have hwhole : trimEnd (trim text) = trim text := by
      rw [trim, trimEnd, List.rdropWhile_idempotent]
    rw [trimEnd, List.rdropWhile_eq_self_iff]
    intro hne
    rw [trimEnd, List.rdropWhile_eq_self_iff, ← hfront] at hwhole
    have hlast := hwhole (List.append_ne_nil_of_right_ne_nil _ hne)
    rwa [List.getLast_append_of_right_ne_nil _ _ hne] at hlast
  rw [trim_append_blank rest hblanks, ← trimStart_trimEnd, hself]

end Str

namespace CodeLines

open Str

/-! ## The rest of a line -/

/-- What stands behind a place in a line: the ranges from the line on. -/
def rangesBehind? (comments : LineComments) (lineStart : Nat) (full : Str)
    (visit : Str → Option (LineState × Option Str)) (text : Str) : Option (List (Nat × Nat)) := do
  let rest := text.takeWhile (· ≠ '\n')
  let (state, code) ← visit rest
  let ranges ← rangesFrom? comments (lineStart + Str.len (full ++ rest) + 1) state
    (splitInclusive (text.dropWhile (· ≠ '\n')).tail)
  return (code.map (codeRange lineStart (withoutLast '\r' (full ++ rest)))).toList ++ ranges

section

variable (comments : LineComments) (visit visit' : Str → Option (LineState × Option Str))

/-- From one place to a later one, with nothing of the text between them left to report. -/
def Steps (text text' : Str) : Prop :=
  ∀ lineStart full, ∃ lineStart' full',
    rangesBehind? comments lineStart full visit text =
        rangesBehind? comments lineStart' full' visit' text' ∧
      lineStart' + Str.len full' + Str.len text' = lineStart + Str.len full + Str.len text

theorem takeWhile_newline {first : Str} (hfirst : '\n' ∉ first) (rest : Str) :
    (first ++ rest).takeWhile (· ≠ '\n') = first ++ rest.takeWhile (· ≠ '\n') ∧
      (first ++ rest).dropWhile (· ≠ '\n') = rest.dropWhile (· ≠ '\n') := by
  have hall : ∀ c ∈ first, decide (c ≠ '\n') = true := by
    intro c hc
    rw [decide_eq_true_eq]
    rintro rfl
    exact hfirst hc
  exact ⟨List.takeWhile_append_of_pos hall, List.dropWhile_append_of_pos hall⟩

variable {comments visit visit'}

theorem Steps.refl (text : Str) : Steps comments visit visit text text :=
  fun lineStart full => ⟨lineStart, full, rfl, rfl⟩

theorem Steps.trans {visit'' : Str → Option (LineState × Option Str)} {text text' text'' : Str}
    (h : Steps comments visit visit' text text') (h' : Steps comments visit' visit'' text' text'') :
    Steps comments visit visit'' text text'' := by
  intro lineStart full
  obtain ⟨lineStart', full', heq, hplace⟩ := h lineStart full
  obtain ⟨lineStart'', full'', heq', hplace'⟩ := h' lineStart' full'
  exact ⟨lineStart'', full'', heq.trans heq', hplace'.trans hplace⟩

/-- A step inside a line. -/
theorem Steps.inLine (first : Str) {rest : Str} (hfirst : '\n' ∉ first)
    (h : visit (first ++ rest.takeWhile (· ≠ '\n')) = visit' (rest.takeWhile (· ≠ '\n'))) :
    Steps comments visit visit' (first ++ rest) rest := by
  intro lineStart full
  refine ⟨lineStart, full ++ first, ?_, ?_⟩
  · obtain ⟨htake, hdrop⟩ := takeWhile_newline hfirst rest
    unfold rangesBehind?
    simp only [htake, hdrop, h, List.append_assoc]
  · rw [Str.len_append, Str.len_append]
    omega

theorem splitInclusive_cons_line {text : Str} (hne : text ≠ []) :
    splitInclusive text =
      (text.takeWhile (· ≠ '\n') ++ (text.dropWhile (· ≠ '\n')).take 1) ::
        splitInclusive (text.dropWhile (· ≠ '\n')).tail := by
  induction text with
  | nil => exact absurd rfl hne
  | cons c text ih =>
    rw [splitInclusive]
    by_cases hc : c = '\n'
    · subst hc
      rw [if_pos rfl]
      rfl
    · have hkeep : decide (c ≠ '\n') = true := decide_eq_true hc
      have htake : (c :: text).takeWhile (· ≠ '\n') = c :: text.takeWhile (· ≠ '\n') :=
        List.takeWhile_cons_of_pos hkeep
      have hdrop : (c :: text).dropWhile (· ≠ '\n') = text.dropWhile (· ≠ '\n') :=
        List.dropWhile_cons_of_pos hkeep
      rw [if_neg hc, htake, hdrop]
      cases text with
      | nil => rfl
      | cons d text =>
        rw [ih (List.cons_ne_nil d text)]
        rfl

theorem head_dropWhile_newline {text rest : Str} {c : Char}
    (h : text.dropWhile (· ≠ '\n') = c :: rest) : c = '\n' := by
  have hhead := List.head?_dropWhile_not (fun d : Char => decide (d ≠ '\n')) text
  rw [h] at hhead
  simpa using hhead

theorem withoutNewline_line (text : Str) :
    withoutNewline (text.takeWhile (· ≠ '\n') ++ (text.dropWhile (· ≠ '\n')).take 1) =
      withoutLast '\r' (text.takeWhile (· ≠ '\n')) := by
  unfold withoutNewline
  congr 1
  cases hdrop : text.dropWhile (· ≠ '\n') with
  | nil =>
    rw [List.take_nil, List.append_nil, withoutLast, if_neg]
    intro hlast
    have hmem := List.mem_of_getLast? hlast
    exact absurd (List.mem_takeWhile_imp hmem) (by decide)
  | cons c rest =>
    obtain rfl := head_dropWhile_newline hdrop
    simp [withoutLast]

theorem trim_withoutLast (text : Str) : trim (withoutLast '\r' text) = trim text := by
  unfold withoutLast
  split
  · next hlast =>
    obtain ⟨init, rfl⟩ := List.getLast?_eq_some_iff.mp hlast
    rw [List.dropLast_concat]
    exact (trim_append_blank init (by simp [isWhitespace])).symm
  · rfl

/-- The lines of a text, from its first one on. -/
theorem rangesFrom?_splitInclusive {state state' : LineState} (offset : Nat)
    (text : Str) (hnil : visitLine? comments state [] = some (state', none)) :
    rangesFrom? comments offset state (splitInclusive text) =
      rangesBehind? comments offset [] (fun rest => visitLine? comments state (trim rest)) text := by
  by_cases hne : text = []
  · subst hne
    have htrim : trim [] = [] := rfl
    unfold rangesBehind?
    simp only [List.takeWhile_nil, htrim, hnil]
    rfl
  · rw [splitInclusive_cons_line hne, rangesFrom?, withoutNewline_line, trim_withoutLast]
    unfold rangesBehind?
    simp only [List.nil_append]
    cases hdrop : text.dropWhile (· ≠ '\n') with
    | nil => rfl
    | cons c rest =>
      have hsize : Str.len (text.takeWhile (· ≠ '\n') ++ [c]) =
          Str.len (text.takeWhile (· ≠ '\n')) + 1 := by
        rw [Str.len_append, head_dropWhile_newline hdrop]
        rfl
      rw [List.take_succ_cons, List.take_zero, hsize]
      rfl

/-- A step over a line break, behind what is left of a line. -/
theorem Steps.newline {state : LineState} (first rest : Str) (hfirst : '\n' ∉ first)
    (h : visit first = some (state, none))
    (hnil : ∃ state', visitLine? comments state [] = some (state', none)) :
    Steps comments visit (fun rest => visitLine? comments state (trim rest))
      (first ++ '\n' :: rest) rest := by
  intro lineStart full
  refine ⟨lineStart + Str.len full + Str.len first + 1, [], ?_, ?_⟩
  · obtain ⟨state', hnil⟩ := hnil
    obtain ⟨htake, hdrop⟩ := takeWhile_newline hfirst ('\n' :: rest)
    rw [List.takeWhile_cons_of_neg (by simp), List.append_nil] at htake
    rw [List.dropWhile_cons_of_neg (by simp)] at hdrop
    rw [← rangesFrom?_splitInclusive _ _ hnil, rangesBehind?, htake, hdrop, h]
    simp only [bind, Option.bind, Str.len_append, List.tail_cons, ← Nat.add_assoc]
    cases rangesFrom? comments (lineStart + Str.len full + Str.len first + 1) state
      (splitInclusive rest) <;> rfl
  · rw [Str.len_append, Str.len_cons, Str.len_nil]
    have hsize : '\n'.utf8Size = 1 := by decide
    omega

end

/-! ## Visits -/

section

variable (comments : LineComments)

/-- A line behind closed brackets. Those of an earlier line may stand before a block comment. -/
def visitBehind? (continued : Bool) (rest : Str) : Option (LineState × Option Str) :=
  if continued then visitRest? comments rest else visitCode? comments rest

/-- What is open at the start of a line. -/
def LineState.opened (brackets : OpenBrackets) : LineState := ⟨false, some brackets⟩

/-- A line from a place between brackets on. `before` stands before it in its line, without blanks
    at the start. -/
def visitFrom? (continued : Bool) (brackets : OpenBrackets) (before rest : Str) :
    Option (LineState × Option Str) :=
  let rest := if before.isEmpty then trimStart rest else rest
  match scan comments brackets before rest with
  | .error brackets => some (.opened brackets, none)
  | .ok stop => (sliceFrom (before ++ rest) stop).bind fun rest =>
      visitBehind? comments continued (trim rest)

theorem visitBehind?_eq {rest : Str} (continued : Bool)
    (h : startsWith rest ['/', '*'] = false) :
    visitBehind? comments continued rest = visitCode? comments rest := by
  cases continued with
  | false => rfl
  | true =>
    rw [visitBehind?, if_pos rfl, visitRest?, h]
    rfl

theorem visitLine?_nil (state : LineState) :
    ∃ state', visitLine? comments state [] = some (state', none) := by
  obtain ⟨state', code, hvisit, hcode⟩ := visitLine?_suffix comments state []
  cases code with
  | none => exact ⟨state', hvisit⟩
  | some code =>
    obtain ⟨hsuffix, hne⟩ := hcode code rfl
    exact absurd (List.suffix_nil.mp hsuffix) hne

/-- Behind the brackets, a trimmed line leaves what the whole line leaves. -/
theorem visit_closed {text blanks : Str} {stop : Nat} {brackets : OpenBrackets} (continued : Bool)
    (hself : trim text = text) (hblanks : ∀ c ∈ blanks, isWhitespace c = true)
    (h : closeOpenBrackets text brackets comments = .ok stop) :
    ∃ rest, sliceFrom text stop = some rest ∧
      (sliceFrom (text ++ blanks) stop).bind
          (fun rest => visitBehind? comments continued (trim rest)) =
        visitBehind? comments continued (trimStart rest) := by
  obtain ⟨before, after, rfl, hlen, hslice⟩ := closeOpenBrackets_split h
  refine ⟨after, hslice, ?_⟩
  have hwhole : sliceFrom (before ++ after ++ blanks) stop = some (after ++ blanks) := by
    rw [sliceFrom, splitAtByte_eq_some.mpr ⟨List.append_assoc _ _ _, hlen⟩]
    rfl
  rw [hwhole, Option.bind_some, trim_suffix_append (before ++ after) (by
    rw [hself]; exact List.suffix_append _ _) hblanks]

/-- Brackets that are open at the start of a line. -/
theorem visitLine?_brackets (brackets : OpenBrackets) (rest : Str) :
    visitLine? comments (.opened brackets) (trim rest) =
      visitFrom? comments true brackets [] rest := by
  obtain ⟨lead, trail, -, hstart, htrail⟩ := exists_trim rest
  have hscan : scan comments brackets [] (trimStart rest) =
      closeOpenBrackets (trim rest) brackets comments := by
    rw [hstart, scan_append_blank comments [] _ htrail]
    rfl
  unfold visitLine? visitFrom?
  simp only [LineState.opened, Bool.false_eq_true, if_false, List.isEmpty_nil, if_true, hscan,
    List.nil_append]
  cases hclose : closeOpenBrackets (trim rest) brackets comments with
  | error brackets => rfl
  | ok stop =>
    obtain ⟨after, hslice, hvisit⟩ := visit_closed comments true (trim_trim rest) htrail hclose
    simp only [hstart, hvisit, hslice, Option.bind_some]
    rfl

end

/-! ## Moves between brackets -/

/-- What stands before a place in its line, without blanks at the start. -/
def onLine (before text : Str) : Str :=
  text.foldl (fun before c =>
    if c = '\n' ∨ before = [] ∧ isWhitespace c = true then [] else before ++ [c]) before

theorem onLine_append (before first rest : Str) :
    onLine before (first ++ rest) = onLine (onLine before first) rest :=
  List.foldl_append

theorem onLine_of_ne_nil {before first : Str} (hne : before ≠ []) (hfirst : '\n' ∉ first) :
    onLine before first = before ++ first := by
  induction first generalizing before with
  | nil => simp [onLine]
  | cons c first ih =>
    obtain ⟨hc, hfirst⟩ := not_or.mp (mt List.mem_cons.mpr hfirst)
    have hstep : onLine before (c :: first) = onLine (before ++ [c]) first := by
      rw [onLine, List.foldl_cons, if_neg (by simp [hne, Ne.symm hc])]
      rfl
    rw [hstep, ih (by simp) hfirst]
    simp

/-- A part of a line that does not start with a blank. -/
theorem onLine_of_start {before first : Str} (hne : first ≠ []) (hfirst : '\n' ∉ first)
    (hstart : ∀ c ∈ first.head?, isWhitespace c = false) :
    onLine before first = before ++ first := by
  by_cases hbefore : before = []
  · obtain ⟨c, first, rfl⟩ := List.exists_cons_of_ne_nil hne
    obtain ⟨hc, hfirst⟩ := not_or.mp (mt List.mem_cons.mpr hfirst)
    have hstep : onLine before (c :: first) = onLine [c] first := by
      rw [onLine, List.foldl_cons, if_neg (by simp [hstart c rfl, Ne.symm hc]), hbefore]
      rfl
    rw [hstep, onLine_of_ne_nil (List.cons_ne_nil c []) hfirst, hbefore]
    rfl
  · exact onLine_of_ne_nil hbefore hfirst

/-- From a place between brackets to a later one. -/
def Moves (comments : LineComments) (brackets : OpenBrackets) (before text : Str)
    (brackets' : OpenBrackets) (before' text' : Str) : Prop :=
  ∀ continued, ∃ continued', Steps comments (visitFrom? comments continued brackets before)
    (visitFrom? comments continued' brackets' before') text text'

section

variable {comments : LineComments} {brackets brackets' : OpenBrackets} {before : Str}

theorem Moves.refl (text : Str) : Moves comments brackets before text brackets before text :=
  fun continued => ⟨continued, Steps.refl text⟩

theorem Moves.trans {brackets'' : OpenBrackets} {before' before'' text text' text'' : Str}
    (h : Moves comments brackets before text brackets' before' text')
    (h' : Moves comments brackets' before' text' brackets'' before'' text'') :
    Moves comments brackets before text brackets'' before'' text'' := by
  intro continued
  obtain ⟨continued', hsteps⟩ := h continued
  obtain ⟨continued'', hsteps'⟩ := h' continued'
  exact ⟨continued'', hsteps.trans hsteps'⟩

/-- A part of a line that does not start with a blank. -/
theorem Moves.inLine (first : Str) {rest : Str} (hne : first ≠ []) (hfirst : '\n' ∉ first)
    (hstart : ∀ c ∈ first.head?, isWhitespace c = false)
    (h : scan comments brackets before (first ++ rest.takeWhile (· ≠ '\n')) =
      scan comments brackets' (before ++ first) (rest.takeWhile (· ≠ '\n'))) :
    Moves comments brackets before (first ++ rest) brackets' (onLine before first) rest := by
  intro continued
  refine ⟨continued, Steps.inLine first hfirst ?_⟩
  obtain ⟨c, more, rfl⟩ := List.exists_cons_of_ne_nil hne
  rw [onLine_of_start hne hfirst hstart]
  have hkept : trimStart (c :: more ++ rest.takeWhile (· ≠ '\n')) =
      c :: more ++ rest.takeWhile (· ≠ '\n') :=
    List.dropWhile_cons_of_neg (by simp [hstart c rfl])
  have hbehind : (before ++ c :: more).isEmpty = false := by simp
  unfold visitFrom?
  simp only [hkept, ite_self, hbehind, Bool.false_eq_true, if_false, h, List.append_assoc]

/-- A blank at the start of a line. -/
theorem Moves.blank {c : Char} (hc : c ≠ '\n') (hblank : isWhitespace c = true) (rest : Str) :
    Moves comments brackets [] (c :: rest) brackets (onLine [] [c]) rest := by
  intro continued
  have hline : onLine [] [c] = [] := by simp [onLine, hblank]
  have hskip : ∀ text : Str, trimStart (c :: text) = trimStart text :=
    fun text => List.dropWhile_cons_of_pos hblank
  refine ⟨continued, Steps.inLine [c] (by simpa using Ne.symm hc) ?_⟩
  rw [hline]
  unfold visitFrom?
  simp only [List.isEmpty_nil, if_true, List.singleton_append, List.nil_append, hskip]

/-- One character of a line. -/
theorem Moves.char {c : Char} {rest : Str} (hc : c ≠ '\n')
    (h : scan comments brackets before (c :: rest.takeWhile (· ≠ '\n')) =
      scan comments brackets (before ++ [c]) (rest.takeWhile (· ≠ '\n'))) :
    Moves comments brackets before (c :: rest) brackets (onLine before [c]) rest := by
  by_cases hblank : before = [] ∧ isWhitespace c = true
  · obtain ⟨rfl, hblank⟩ := hblank
    exact Moves.blank hc hblank rest
  · intro continued
    refine ⟨continued, Steps.inLine [c] (by simpa using Ne.symm hc) ?_⟩
    have hline : onLine before [c] = before ++ [c] := by
      rw [onLine, List.foldl_cons, if_neg (not_or.mpr ⟨hc, hblank⟩)]
      rfl
    have hkept : (if before.isEmpty then trimStart (c :: rest.takeWhile (· ≠ '\n'))
        else c :: rest.takeWhile (· ≠ '\n')) = c :: rest.takeWhile (· ≠ '\n') := by
      split
      · next hnil =>
        have hkeep : ¬ isWhitespace c = true := fun hyes => hblank ⟨List.isEmpty_iff.mp hnil, hyes⟩
        exact List.dropWhile_cons_of_neg hkeep
      · rfl
    have hbehind : (before ++ [c]).isEmpty = false := by simp
    rw [hline]
    unfold visitFrom?
    simp only [List.singleton_append, hkept, hbehind, Bool.false_eq_true, if_false, h,
      List.append_assoc]

/-- The end of a line, behind what the scan leaves open. -/
theorem Moves.newline (first rest : Str) (hfirst : '\n' ∉ first)
    (h : scan comments brackets before
      (if before.isEmpty then trimStart first else first) = .error brackets.atLineEnd) :
    Moves comments brackets before (first ++ '\n' :: rest) brackets.atLineEnd
      (onLine before (first ++ ['\n'])) rest := by
  intro continued
  have hline : onLine before (first ++ ['\n']) = [] := by simp [onLine]
  have hvisit : visitFrom? comments continued brackets before first =
      some (.opened brackets.atLineEnd, none) := by
    unfold visitFrom?
    simp only [h]
  have hsteps := Steps.newline first rest hfirst hvisit (visitLine?_nil comments _)
  refine ⟨true, ?_⟩
  rw [hline]
  intro lineStart full
  obtain ⟨lineStart', full', heq, hplace⟩ := hsteps lineStart full
  refine ⟨lineStart', full', heq.trans ?_, hplace⟩
  have hsame : (fun rest => visitLine? comments (.opened brackets.atLineEnd) (trim rest)) =
      visitFrom? comments true brackets.atLineEnd [] :=
    funext fun rest => visitLine?_brackets comments _ rest
  rw [hsame]

/-- A line break that leaves open what is open. -/
theorem Moves.lineBreak (hsame : brackets.atLineEnd = brackets) (rest : Str) :
    Moves comments brackets before ('\n' :: rest) brackets (onLine before ['\n']) rest := by
  have hscan : scan comments brackets before (if before.isEmpty then trimStart [] else []) =
      .error brackets.atLineEnd := by
    rw [show trimStart [] = [] from rfl, ite_self]
    exact scan_nil comments before
  have hstep := Moves.newline [] rest (by simp) hscan
  rwa [hsame] at hstep

end

/-! ## Strings and block comments -/

/-- The inside of a string, up to its first delimiter that is not escaped. -/
inductive StringBody (delimiter : StringDelimiter) : Str → Prop where
  | nil : StringBody delimiter []
  | escape (c : Char) {body : Str} (rest : StringBody delimiter body) :
      StringBody delimiter ('\\' :: c :: body)
  | char {c : Char} {body : Str} (escaped : c ≠ '\\')
      (closed : ¬ delimiter.chars <+: c :: body ++ delimiter.chars)
      (rest : StringBody delimiter body) : StringBody delimiter (c :: body)

section

variable {comments : LineComments} {brackets : OpenBrackets}

theorem atLineEnd_of_isLong {delimiter : StringDelimiter}
    (hstring : brackets.string = some delimiter) (hlong : delimiter.isLong = true) :
    brackets.atLineEnd = brackets := by
  obtain ⟨depth, string, blockComment⟩ := brackets
  obtain rfl : string = some delimiter := hstring
  simp [OpenBrackets.atLineEnd, hlong]

/-- A text starts with what a part of it starts with. -/
theorem isPrefixOf_takeWhile {pattern rest : Str} (first : Str) (h : ¬ pattern <+: first ++ rest) :
    pattern.isPrefixOf (first ++ rest.takeWhile (· ≠ '\n')) = false := by
  rw [Bool.eq_false_iff]
  intro hopen
  rw [List.isPrefixOf_iff_prefix] at hopen
  exact h (hopen.trans ((List.prefix_append_right_inj first).mpr (List.takeWhile_prefix _)))

theorem StringDelimiter.newline_not_mem (delimiter : StringDelimiter) : '\n' ∉ delimiter.chars := by
  cases delimiter <;> simp [StringDelimiter.chars]

theorem StringDelimiter.head_chars (delimiter : StringDelimiter) :
    delimiter.chars ≠ [] ∧ ∀ c ∈ delimiter.chars.head?, isWhitespace c = false := by
  cases delimiter <;> simp [StringDelimiter.chars, isWhitespace]

/-- A string up to its end. -/
theorem moves_string (comments : LineComments) (brackets : OpenBrackets)
    {delimiter : StringDelimiter} {body : Str} (hbody : StringBody delimiter body)
    (hstring : brackets.string = some delimiter) (hline : delimiter.isLong = false → '\n' ∉ body)
    (before rest : Str) :
    Moves comments brackets before (body ++ (delimiter.chars ++ rest))
      { brackets with string := none } (onLine before (body ++ delimiter.chars)) rest := by
  -- A break inside the string leaves it open.
  have hbreak : ∀ {later : Str}, '\n' ∈ later → (delimiter.isLong = false → '\n' ∉ later) →
      brackets.atLineEnd = brackets := by
    intro later hmem hshort
    refine atLineEnd_of_isLong hstring ?_
    by_contra hnot
    exact hshort (Bool.not_eq_true _ ▸ hnot) hmem
  induction hbody generalizing before with
  | nil =>
    obtain ⟨hne, hstart⟩ := delimiter.head_chars
    exact Moves.inLine delimiter.chars hne delimiter.newline_not_mem hstart
      (scan_string_close comments before hstring _)
  | @escape c body hbody ih =>
    have hnext := ih (fun hshort hmem => hline hshort (by simp [hmem]))
      (onLine before ['\\', c])
    rw [← onLine_append] at hnext
    refine Moves.trans ?_ hnext
    by_cases hc : c = '\n'
    · subst hc
      have hsame := hbreak (by simp) hline
      have hscan : scan comments brackets before
          (if before.isEmpty then trimStart ['\\'] else ['\\']) = .error brackets.atLineEnd := by
        rw [show trimStart ['\\'] = ['\\'] from rfl, ite_self]
        exact scan_string_escape_end comments before hstring
      have hstep := Moves.newline ['\\'] (body ++ (delimiter.chars ++ rest)) (by simp) hscan
      rwa [hsame] at hstep
    · exact Moves.inLine ['\\', c] (by simp) (by simpa using Ne.symm hc)
        (by simp [isWhitespace]) (scan_string_escape comments before hstring c _)
  | @char c body hescape hclosed hbody ih =>
    have hnext := ih (fun hshort hmem => hline hshort (by simp [hmem])) (onLine before [c])
    rw [← onLine_append] at hnext
    refine Moves.trans ?_ hnext
    by_cases hc : c = '\n'
    · subst hc
      exact Moves.lineBreak (hbreak List.mem_cons_self hline) _
    · refine Moves.char hc (scan_string_skip comments before hstring hescape ?_)
      refine isPrefixOf_takeWhile [c] fun hopen => hclosed ?_
      refine List.prefix_of_prefix_length_le hopen ?_ ?_
      · simp [← List.append_assoc]
      · simp
        omega

/-- A block comment up to its end. -/
theorem moves_blockComment (comments : LineComments) (brackets : OpenBrackets)
    (hstring : brackets.string = none)
    (hblock : brackets.blockComment = true) {body : Str} (hbody : ¬ ['*', '/'] <:+: body)
    (before rest : Str) :
    Moves comments brackets before (body ++ '*' :: '/' :: rest)
      { brackets with blockComment := false } (onLine before (body ++ ['*', '/'])) rest := by
  induction body generalizing before with
  | nil =>
    exact Moves.inLine ['*', '/'] (by simp) (by simp) (by simp [isWhitespace])
      (scan_block_close comments before hstring hblock _)
  | cons c body ih =>
    have hnext := ih (fun hmem => hbody (hmem.trans (List.suffix_cons c body).isInfix))
      (onLine before [c])
    rw [← onLine_append] at hnext
    refine Moves.trans ?_ hnext
    by_cases hc : c = '\n'
    · subst hc
      have hsame : brackets.atLineEnd = brackets := by
        obtain ⟨depth, string, blockComment⟩ := brackets
        obtain rfl : string = none := hstring
        rfl
      exact Moves.lineBreak hsame _
    · refine Moves.char hc (scan_block_skip comments before hstring hblock ?_)
      refine isPrefixOf_takeWhile [c] fun hopen => ?_
      obtain ⟨rfl, hslash⟩ := List.cons_prefix_cons.mp hopen
      cases body with
      | nil =>
        obtain ⟨hslash, -⟩ := List.cons_prefix_cons.mp hslash
        exact absurd hslash (by decide)
      | cons d body =>
        obtain ⟨rfl, -⟩ := List.cons_prefix_cons.mp hslash
        exact hbody ⟨[], body, rfl⟩

end

/-! ## Arguments -/

/-- A part of the arguments of an annotation. A character is one of an identifier or an operator, or
    a blank or a line break. -/
inductive Token where
  | char (c : Char)
  | string (delimiter : StringDelimiter) (body : Str)
  | blockComment (body : Str)
  | lineComment (comment : Str)
  | opening (c : Char)
  | closing (c : Char)

namespace Token

/-- Line comments come with their line break. -/
def text : Token → Str
  | char c => [c]
  | string delimiter body => delimiter.chars ++ (body ++ delimiter.chars)
  | blockComment body => '/' :: '*' :: (body ++ ['*', '/'])
  | lineComment comment => comment ++ ['\n']
  | opening c => [c]
  | closing c => [c]

/-- Whether a token between `before` in its line and `rest` is read as such: a character starts no
    other token, and a quote that ends up in front of others opens no longer string. -/
def Read (comments : LineComments) (before rest : Str) : Token → Prop
  | char c => c ∉ quoteChars ∧ c ∉ openingChars ∧ c ∉ closingChars ∧
      ¬ ['/', '*'] <+: c :: rest ∧ comments.opens before (c :: rest) = false
  | string delimiter body => StringBody delimiter body ∧
      (delimiter.isLong = false → '\n' ∉ body) ∧
      ∀ other : StringDelimiter, other.chars <+: delimiter.chars ++ (body ++ delimiter.chars ++ rest) →
        other.chars.length ≤ delimiter.chars.length
  | blockComment body => ¬ ['*', '/'] <:+: body
  | lineComment comment => '\n' ∉ comment ∧ comments.opens before comment = true
  | opening c => c ∈ openingChars
  | closing c => c ∈ closingChars

end Token

def tokensText (tokens : List Token) : Str := tokens.flatMap Token.text

def ReadAll (comments : LineComments) : Str → List Token → Str → Prop
  | _, [], _ => True
  | before, token :: tokens, rest =>
    token.Read comments before (tokensText tokens ++ rest) ∧
      ReadAll comments (onLine before token.text) tokens rest

/-- The bracket that closes another one. -/
def closes : Char → Char → Bool
  | '(', ')' => true
  | '[', ']' => true
  | '{', '}' => true
  | _, _ => false

/-- The brackets that are open behind tokens, the last one first. -/
def openBehind : List Char → List Token → Option (List Char)
  | stack, [] => some stack
  | stack, .opening c :: tokens => openBehind (c :: stack) tokens
  | [], .closing _ :: _ => none
  | c :: stack, .closing d :: tokens => if closes c d then openBehind stack tokens else none
  | stack, _ :: tokens => openBehind stack tokens

section

variable {comments : LineComments}

theorem find?_of_longest {delimiter : StringDelimiter} {rest : Str}
    (h : ∀ other : StringDelimiter, other.chars <+: delimiter.chars ++ rest →
      other.chars.length ≤ delimiter.chars.length) :
    stringDelimiters.find? (fun other => other.chars.isPrefixOf (delimiter.chars ++ rest)) =
      some delimiter := by
  have hother : ∀ other : StringDelimiter, delimiter.chars.length < other.chars.length →
      other.chars.isPrefixOf (delimiter.chars ++ rest) = false := by
    intro other hlong
    rw [Bool.eq_false_iff]
    intro hopen
    exact Nat.not_le.mpr hlong (h other (List.isPrefixOf_iff_prefix.mp hopen))
  cases delimiter with
  | tripleDouble => simp [stringDelimiters, StringDelimiter.chars, List.isPrefixOf]
  | tripleSingle => simp [stringDelimiters, StringDelimiter.chars, List.isPrefixOf]
  | double =>
    have htriple := hother .tripleDouble (by decide)
    simp [stringDelimiters, htriple]
    simp [StringDelimiter.chars, List.isPrefixOf]
  | single =>
    have htriple := hother .tripleSingle (by decide)
    simp [stringDelimiters, htriple]
    simp [StringDelimiter.chars, List.isPrefixOf]
  | backtick => simp [stringDelimiters, StringDelimiter.chars, List.isPrefixOf]

/-- A comment starts in a text if it starts in its line. -/
theorem opens_takeWhile {before rest : Str} {c : Char}
    (h : comments.opens before (c :: rest) = false) :
    comments.opens before (c :: rest.takeWhile (· ≠ '\n')) = false := by
  have hhead : (rest.takeWhile (· ≠ '\n')).head?.all isAsciiBlank = true →
      rest.head?.all isAsciiBlank = true := by
    intro hall
    cases rest with
    | nil => rfl
    | cons d rest =>
      by_cases hd : d = '\n'
      · rw [hd]
        rfl
      · have htake : (d :: rest).takeWhile (· ≠ '\n') = d :: rest.takeWhile (· ≠ '\n') :=
          List.takeWhile_cons_of_pos (decide_eq_true hd)
        rwa [htake] at hall
  have hslashes : ['/', '/'] <+: c :: rest.takeWhile (· ≠ '\n') → ['/', '/'] <+: c :: rest :=
    fun hopen => hopen.trans ((List.prefix_append_right_inj [c]).mpr (List.takeWhile_prefix _))
  rw [Bool.eq_false_iff] at h ⊢
  intro hopens
  apply h
  cases comments with
  | hash => simpa [LineComments.opens, List.isPrefixOf] using hopens
  | mixed =>
    simp only [LineComments.opens, Bool.or_eq_true, Bool.and_eq_true, List.isPrefixOf_iff_prefix,
      List.tail_cons] at hopens ⊢
    rcases hopens with hopen | ⟨⟨hopen, hbefore⟩, hblank⟩
    · exact .inl (hslashes hopen)
    · refine .inr ⟨⟨?_, hbefore⟩, hhead hblank⟩
      obtain ⟨rfl, -⟩ := List.cons_prefix_cons.mp hopen
      exact List.prefix_append ['#'] rest

theorem start_of_opens {before comment : Str} (h : comments.opens before comment = true) :
    trimStart comment = comment := by
  cases comment with
  | nil => rfl
  | cons c comment =>
    refine List.dropWhile_cons_of_neg ?_
    have hc : c = '#' ∨ c = '/' := by
      cases comments with
      | hash =>
        rw [LineComments.opens, List.isPrefixOf_iff_prefix, List.cons_prefix_cons] at h
        exact .inl h.1.symm
      | mixed =>
        simp only [LineComments.opens, Bool.or_eq_true, Bool.and_eq_true,
          List.isPrefixOf_iff_prefix, List.cons_prefix_cons] at h
        rcases h with ⟨rfl, -⟩ | ⟨⟨⟨rfl, -⟩, -⟩, -⟩
        · exact .inr rfl
        · exact .inl rfl
    rcases hc with rfl | rfl <;> decide

theorem blank_of_bracket {c : Char} (hc : c ∈ openingChars ∨ c ∈ closingChars) :
    isWhitespace c = false ∧ c ≠ '\n' := by
  have hcases : c ∈ openingChars ++ closingChars := List.mem_append.mpr hc
  simp only [openingChars, closingChars, List.cons_append, List.nil_append, List.mem_cons,
    List.not_mem_nil, or_false] at hcases
  rcases hcases with rfl | rfl | rfl | rfl | rfl | rfl <;> decide

/-- What is open at a place of the arguments. -/
def atDepth (depth : Nat) : OpenBrackets := ⟨depth, none, false⟩

theorem moves_opening (comments : LineComments) {c : Char} (hc : c ∈ openingChars) (depth : Nat) (before rest : Str) :
    Moves comments (atDepth depth) before (c :: rest) (atDepth (depth + 1)) (onLine before [c])
      rest := by
  obtain ⟨hblank, hnewline⟩ := blank_of_bracket (.inl hc)
  exact Moves.inLine [c] (by simp) (by simpa using Ne.symm hnewline) (by simpa using hblank)
    (scan_open comments before rfl rfl hc _)

theorem moves_closing {c : Char} (hc : c ∈ closingChars) (depth : Nat) (before rest : Str) :
    Moves comments (atDepth (depth + 2)) before (c :: rest) (atDepth (depth + 1)) (onLine before [c])
      rest := by
  obtain ⟨hblank, hnewline⟩ := blank_of_bracket (.inr hc)
  refine Moves.inLine [c] (by simp) (by simpa using Ne.symm hnewline)
    (by simpa using hblank) ?_
  have hscan := scan_close comments (atDepth (depth + 2)) before rfl rfl hc
    (rest.takeWhile (· ≠ '\n'))
  rw [if_neg (by simp [atDepth])] at hscan
  exact hscan

/-- A token that is no bracket. -/
theorem moves_token {token : Token} {before rest : Str} (h : token.Read comments before rest)
    (hopening : ∀ c, token ≠ .opening c) (hclosing : ∀ c, token ≠ .closing c) (depth : Nat) :
    Moves comments (atDepth depth) before (token.text ++ rest) (atDepth depth)
      (onLine before token.text) rest := by
  cases token with
  | char c =>
    obtain ⟨hquote, hopen, hclose, hblock, hcomment⟩ := h
    by_cases hc : c = '\n'
    · subst hc
      exact Moves.lineBreak rfl rest
    · exact Moves.char hc (scan_code_skip comments before rfl rfl hquote hopen hclose
        (isPrefixOf_takeWhile [c] hblock) (opens_takeWhile hcomment))
  | string delimiter body =>
    obtain ⟨hbody, hline, hlongest⟩ := h
    obtain ⟨hne, hstart⟩ := delimiter.head_chars
    have hopen : Moves comments (atDepth depth) before (delimiter.chars ++ (body ++
        (delimiter.chars ++ rest))) { atDepth depth with string := some delimiter }
        (onLine before delimiter.chars) (body ++ (delimiter.chars ++ rest)) := by
      refine Moves.inLine delimiter.chars hne delimiter.newline_not_mem hstart (scan_quote comments before rfl rfl
        (find?_of_longest fun other hother => hlongest other ?_))
      rw [List.append_assoc body]
      exact hother.trans ((List.prefix_append_right_inj _).mpr (List.takeWhile_prefix _))
    have hclose := moves_string comments { atDepth depth with string := some delimiter } hbody rfl
      hline (onLine before delimiter.chars) rest
    rw [← onLine_append] at hclose
    simpa [Token.text, atDepth] using hopen.trans hclose
  | blockComment body =>
    have hopen : Moves comments (atDepth depth) before (['/', '*'] ++ (body ++ '*' :: '/' :: rest))
        { atDepth depth with blockComment := true } (onLine before ['/', '*'])
        (body ++ '*' :: '/' :: rest) :=
      Moves.inLine ['/', '*'] (by simp) (by simp) (by simp [isWhitespace])
        (scan_blockComment comments before rfl rfl _)
    have hclose := moves_blockComment comments { atDepth depth with blockComment := true } rfl rfl h
      (onLine before ['/', '*']) rest
    rw [← onLine_append] at hclose
    simpa [Token.text, atDepth] using hopen.trans hclose
  | lineComment comment =>
    obtain ⟨hnewline, hopens⟩ := h
    have hscan : scan comments (atDepth depth) before
        (if before.isEmpty then trimStart comment else comment) =
          .error (atDepth depth).atLineEnd := by
      rw [start_of_opens hopens, ite_self]
      exact scan_comment comments before rfl rfl hopens
    have hstep := Moves.newline comment rest hnewline hscan
    simpa [Token.text, atDepth, OpenBrackets.atLineEnd] using hstep
  | opening c => exact absurd rfl (hopening c)
  | closing c => exact absurd rfl (hclosing c)

/-- All of the arguments. The depth is the number of the brackets that are open. -/
theorem moves_tokens {tokens : List Token} {stack stack' : List Char} {before rest : Str}
    (hread : ReadAll comments before tokens rest) (hstack : openBehind stack tokens = some stack') :
    Moves comments (atDepth (stack.length + 1)) before (tokensText tokens ++ rest)
      (atDepth (stack'.length + 1)) (onLine before (tokensText tokens)) rest := by
  induction tokens generalizing stack before with
  | nil =>
    obtain rfl := Option.some.inj hstack
    exact Moves.refl rest
  | cons token tokens ih =>
    obtain ⟨htoken, hread⟩ := hread
    have hcons : tokensText (token :: tokens) = token.text ++ tokensText tokens :=
      List.flatMap_cons
    rw [hcons, List.append_assoc, onLine_append]
    cases token with
    | opening c =>
      exact (moves_opening comments htoken (stack.length + 1) before _).trans (ih hread hstack)
    | closing d =>
      cases stack with
      | nil => cases hstack
      | cons c stack =>
        rw [openBehind] at hstack
        split at hstack
        · exact (moves_closing htoken stack.length before _).trans (ih hread hstack)
        · cases hstack
    | char c => exact (moves_token htoken nofun nofun _).trans (ih hread hstack)
    | string delimiter body => exact (moves_token htoken nofun nofun _).trans (ih hread hstack)
    | blockComment body => exact (moves_token htoken nofun nofun _).trans (ih hread hstack)
    | lineComment comment => exact (moves_token htoken nofun nofun _).trans (ih hread hstack)

end

/-! ## Before a declaration -/

/-- The text of an annotation before its brackets. -/
inductive IsHead : Str → Char → Prop where
  | name {name : Str} (nonempty : name ≠ []) (chars : ∀ c ∈ name, isIdentifier c = true) :
      IsHead ('@' :: name) '('
  | outer : IsHead ['#'] '['
  | inner : IsHead ['#', '!'] '['

/-- Blank lines and annotations in front of a text. A name without brackets ends there. -/
inductive Prelude (comments : LineComments) (rest : Str) : Str → Prop where
  | nil : Prelude comments rest []
  | blank {c : Char} {text : Str} (blank : isWhitespace c = true)
      (behind : Prelude comments rest text) : Prelude comments rest (c :: text)
  | bare {name text : Str} (nonempty : name ≠ []) (chars : ∀ c ∈ name, isIdentifier c = true)
      (ends : ∀ c ∈ (text ++ rest).head?, isIdentifier c = false ∧ c ≠ '(')
      (behind : Prelude comments rest text) : Prelude comments rest ('@' :: name ++ text)
  | brackets {head text : Str} {opening closing : Char} {tokens : List Token}
      (isHead : IsHead head opening) (pair : closes opening closing = true)
      (read : ReadAll comments [opening] tokens (closing :: (text ++ rest)))
      (balanced : openBehind [] tokens = some [])
      (behind : Prelude comments rest text) :
      Prelude comments rest (head ++ (opening :: (tokensText tokens ++ closing :: text)))

/-- A character that a declaration starts with, such as a letter. -/
def startsCode (c : Char) : Bool := !isWhitespace c && !(['@', '#', '/', '*', '['].contains c)

section

variable {comments : LineComments}

/-- From a place before the declaration to a later one. -/
def Nears (comments : LineComments) (text text' : Str) : Prop :=
  ∀ continued, ∃ continued', Steps comments
    (fun rest => visitBehind? comments continued (trim rest))
    (fun rest => visitBehind? comments continued' (trim rest)) text text'

theorem Nears.trans {text text' text'' : Str} (h : Nears comments text text')
    (h' : Nears comments text' text'') : Nears comments text text'' := by
  intro continued
  obtain ⟨continued', hsteps⟩ := h continued
  obtain ⟨continued'', hsteps'⟩ := h' continued'
  exact ⟨continued'', hsteps.trans hsteps'⟩

theorem stripAnnotationPrefix?_nil : stripAnnotationPrefix? comments [] = some (.ok []) := by
  rw [stripAnnotationPrefix?.eq_def]
  rfl

theorem visitBehind?_nil (continued : Bool) :
    visitBehind? comments continued [] = some (.start, none) := by
  rw [visitBehind?_eq comments continued rfl, visitCode?, stripAnnotationPrefix?_nil]
  rfl

theorem nears_blank {c : Char} (hblank : isWhitespace c = true) (rest : Str) :
    Nears comments (c :: rest) rest := by
  intro continued
  by_cases hc : c = '\n'
  · subst hc
    exact ⟨true, Steps.newline [] _ (by simp) (visitBehind?_nil continued)
      (visitLine?_nil comments .start)⟩
  · refine ⟨continued, Steps.inLine [c] (by simpa using Ne.symm hc) ?_⟩
    have hskip : ∀ text : Str, trim (c :: text) = trim text := by
      intro text
      rw [trim, trimStart, List.dropWhile_cons_of_pos hblank]
      rfl
    simp only [List.singleton_append, hskip]

theorem dropWhile_name {name : Str} (rest : Str) (hname : ∀ c ∈ name, isIdentifier c = true)
    (hends : ∀ c ∈ rest.head?, isIdentifier c = false) :
    (name ++ rest).takeWhile isIdentifier = name ∧
      (name ++ rest).dropWhile isIdentifier = rest := by
  have hrest : rest.takeWhile isIdentifier = [] ∧ rest.dropWhile isIdentifier = rest := by
    cases rest with
    | nil => exact ⟨rfl, rfl⟩
    | cons c rest =>
      have hc : ¬ isIdentifier c = true := by simp [hends c rfl]
      exact ⟨List.takeWhile_cons_of_neg hc, List.dropWhile_cons_of_neg hc⟩
  rw [List.takeWhile_append_of_pos hname, List.dropWhile_append_of_pos hname, hrest.1, hrest.2]
  exact ⟨List.append_nil name, rfl⟩

theorem trimEnd_append_start (front : Str) (rest : Str) {c : Char} (hfront : front ≠ [])
    (hlast : front.getLast? = some c) (hc : isWhitespace c = false) :
    trimEnd (front ++ rest) = front ++ trimEnd rest := by
  by_cases hne : trimEnd rest = []
  · have hblanks : ∀ d ∈ rest, isWhitespace d = true := List.rdropWhile_eq_nil_iff.mp hne
    rw [trimEnd_blank front hblanks, hne, List.append_nil, trimEnd, List.rdropWhile_eq_self_iff]
    intro _
    rw [List.getLast?_eq_some_getLast hfront, Option.some.injEq] at hlast
    simp [hlast, hc]
  · exact trimEnd_append _ hne

theorem head?_trimEnd (rest : Str) : ∀ c ∈ (trimEnd rest).head?, c ∈ rest.head? := by
  intro c hc
  obtain ⟨blanks, hsplit⟩ := List.rdropWhile_prefix isWhitespace (l := rest)
  rw [← hsplit, List.head?_append]
  rw [Option.mem_def] at hc ⊢
  rw [show (rest.rdropWhile isWhitespace).head? = some c from hc]
  rfl

theorem not_blank_of_isIdentifier {c : Char} (h : isIdentifier c = true) :
    isWhitespace c = false ∧ c ≠ '\n' := by
  have hc : c.toNat ≤ 0x7f := by
    simp only [isIdentifier, Bool.or_eq_true, beq_iff_eq] at h
    rcases h with ((h | rfl) | rfl) | rfl
    · exact ascii_of_isAlphanum h
    · decide
    · decide
    · decide
  exact forall_ascii (p := fun c => isIdentifier c = true → isWhitespace c = false ∧ c ≠ '\n')
    (by decide +kernel) hc h

/-- A name is at the end of the text of its annotation. -/
theorem name_getLast? {name : Str} (hne : name ≠ []) (hname : ∀ c ∈ name, isIdentifier c = true) :
    ∃ c, ('@' :: name).getLast? = some c ∧ isWhitespace c = false := by
  refine ⟨name.getLast hne, ?_, ?_⟩
  · rw [List.getLast?_eq_some_getLast (List.cons_ne_nil _ _), List.getLast_cons hne]
  · exact (not_blank_of_isIdentifier (hname _ (List.getLast_mem hne))).1

theorem newline_not_mem_name {name : Str} (hname : ∀ c ∈ name, isIdentifier c = true) :
    '\n' ∉ '@' :: name := by
  rw [List.mem_cons, not_or]
  refine ⟨by decide, fun hmem => ?_⟩
  exact (not_blank_of_isIdentifier (hname _ hmem)).2 rfl

theorem head_takeWhile {rest : Str} :
    ∀ c ∈ (rest.takeWhile (· ≠ '\n')).head?, c ∈ rest.head? := by
  intro c hc
  cases rest with
  | nil => cases hc
  | cons d rest =>
    rw [List.takeWhile_cons] at hc
    split at hc
    · exact hc
    · cases hc

theorem visitCode?_bare {name rest : Str} (hne : name ≠ [])
    (hname : ∀ c ∈ name, isIdentifier c = true)
    (hends : ∀ c ∈ rest.head?, isIdentifier c = false ∧ c ≠ '(') :
    visitCode? comments (trim ('@' :: name ++ rest)) = visitCode? comments (trim rest) := by
  obtain ⟨last, hlast, hblank⟩ := name_getLast? hne hname
  have htrim : trim ('@' :: name ++ rest) = '@' :: (name ++ trimEnd rest) := by
    have hstart : trimStart ('@' :: name ++ rest) = '@' :: name ++ rest := rfl
    rw [trim, hstart]
    exact trimEnd_append_start _ rest (List.cons_ne_nil _ _) hlast hblank
  have hhead : ∀ c ∈ (trimEnd rest).head?, isIdentifier c = false ∧ c ≠ '(' :=
    fun c hc => hends c (head?_trimEnd rest c hc)
  obtain ⟨htake, hdrop⟩ := dropWhile_name (trimEnd rest) hname fun c hc => (hhead c hc).1
  have hparen : startsWith (trimEnd rest) ['('] = false := by
    rw [Bool.eq_false_iff]
    intro hopen
    rw [startsWith, List.isPrefixOf_iff_prefix] at hopen
    obtain ⟨more, hmore⟩ := hopen
    exact (hhead '(' (by rw [← hmore]; rfl)).2 rfl
  have hfound : annotation? ('@' :: (name ++ trimEnd rest)) = some (.bare (trimEnd rest)) := by
    simp only [annotation?, htake, hdrop, hparen]
    rw [if_neg (by simpa using hne), if_neg Bool.false_ne_true]
  rw [htrim, visitCode?, visitCode?, stripAnnotationPrefix?.eq_def]
  split
  · next heq => rw [hfound] at heq; cases heq
  · next heq =>
    rw [hfound] at heq
    cases heq
    rw [trimStart_trimEnd]
  · next heq => rw [hfound] at heq; cases heq

theorem trimStart_cons {c : Char} (hc : isWhitespace c = false) (rest : Str) :
    trimStart (c :: rest) = c :: rest :=
  List.dropWhile_cons_of_neg (by simp [hc])

/-- What does not start with a slash starts with no comment. -/
theorem visitBehind?_start {c : Char} (continued : Bool) (hc : isWhitespace c = false)
    (hslash : c ≠ '/') (rest : Str) :
    visitBehind? comments continued (trim (c :: rest)) =
      visitCode? comments (trim (c :: rest)) := by
  refine visitBehind?_eq comments continued ?_
  rw [Bool.eq_false_iff]
  intro hopen
  rw [startsWith, List.isPrefixOf_iff_prefix] at hopen
  obtain ⟨more, hmore⟩ := hopen
  have htrim : trim (c :: rest) = trimEnd (c :: rest) := by
    rw [trim, trimStart_cons hc]
    rfl
  have hhead := head?_trimEnd (c :: rest) '/' (by rw [← htrim, ← hmore]; rfl)
  exact hslash (Option.some.inj hhead)

theorem nears_bare {name rest : Str} (hne : name ≠ []) (hname : ∀ c ∈ name, isIdentifier c = true)
    (hends : ∀ c ∈ rest.head?, isIdentifier c = false ∧ c ≠ '(') :
    Nears comments ('@' :: name ++ rest) rest := by
  intro continued
  refine ⟨false, Steps.inLine _ (newline_not_mem_name hname) ?_⟩
  rw [List.cons_append, visitBehind?_start continued (by decide) (by decide)]
  exact visitCode?_bare hne hname fun c hc => hends c (head_takeWhile c hc)

/-- An annotation, up to its first bracket. -/
theorem IsHead.annotation? {head : Str} {opening : Char} (h : IsHead head opening) (rest : Str) :
    CodeLines.annotation? (head ++ opening :: rest) = some (.withBrackets (opening :: rest)) := by
  cases h with
  | @name name hne hname =>
    obtain ⟨htake, hdrop⟩ := dropWhile_name ('(' :: rest) hname (by
      intro c hc
      cases hc
      decide)
    simp only [List.cons_append, CodeLines.annotation?, htake, hdrop]
    rw [if_neg (by simpa using hne)]
    exact if_pos (startsWith_append ['('] rest)
  | outer => rfl
  | inner => rfl

theorem IsHead.parts {head : Str} {opening : Char} (h : IsHead head opening) :
    ∃ c more, head = c :: more ∧ isWhitespace c = false ∧ c ≠ '/' ∧ '\n' ∉ head ∧
      opening ∈ openingChars := by
  cases h with
  | @name name hne hname =>
    exact ⟨'@', name, rfl, by decide, by decide, newline_not_mem_name hname, by simp [openingChars]⟩
  | outer => exact ⟨'#', [], rfl, by decide, by decide, by simp, by simp [openingChars]⟩
  | inner => exact ⟨'#', ['!'], rfl, by decide, by decide, by simp, by simp [openingChars]⟩

theorem visitCode?_brackets {head : Str} {opening : Char} (h : IsHead head opening) (rest : Str) :
    visitCode? comments (trim (head ++ opening :: rest)) =
      visitFrom? comments false (atDepth 0) [] (opening :: rest) := by
  obtain ⟨first, more, hhead, hfirst, -, -, hopening⟩ := h.parts
  have hblank := (blank_of_bracket (.inl hopening)).1
  have htrimHead : trimEnd (opening :: rest) ≠ [] := by
    intro hnil
    have hall := List.rdropWhile_eq_nil_iff.mp hnil opening List.mem_cons_self
    rw [hblank] at hall
    cases hall
  have htrim : trim (head ++ opening :: rest) = head ++ trimEnd (opening :: rest) := by
    have hstart : trimStart (head ++ opening :: rest) = head ++ opening :: rest := by
      rw [hhead, List.cons_append, trimStart_cons hfirst]
    rw [trim, hstart]
    exact trimEnd_append head htrimHead
  obtain ⟨closed, hclosed⟩ : ∃ closed, trimEnd (opening :: rest) = opening :: closed := by
    obtain ⟨c, closed, hcons⟩ := List.exists_cons_of_ne_nil htrimHead
    have hmem := head?_trimEnd (opening :: rest) c (by rw [hcons]; rfl)
    obtain rfl : opening = c := Option.some.inj hmem
    exact ⟨closed, hcons⟩
  have hsplit : opening :: rest = opening :: closed ++
      (opening :: rest).rtakeWhile isWhitespace := by
    rw [← hclosed]
    exact List.rdropWhile_append_rtakeWhile.symm
  have hblanks : ∀ c ∈ (opening :: rest).rtakeWhile isWhitespace, isWhitespace c = true :=
    fun c hc => List.mem_rtakeWhile_imp hc
  have hself : trim (opening :: closed) = opening :: closed := by
    rw [trim, trimStart_cons hblank, ← hclosed]
    exact List.rdropWhile_idempotent _ _
  have hscan : scan comments (atDepth 0) [] (opening :: rest) =
      closeOpenBrackets (opening :: closed) .default comments := by
    rw [hsplit, scan_append_blank comments [] _ hblanks]
    rfl
  have hfound := h.annotation? closed
  rw [htrim, hclosed, visitCode?, stripAnnotationPrefix?.eq_def, visitFrom?]
  simp only [List.isEmpty_nil, if_true, trimStart_cons hblank, hscan, List.nil_append]
  split
  · next heq => rw [hfound] at heq; cases heq
  · next heq => rw [hfound] at heq; cases heq
  · next heq =>
    rw [hfound] at heq
    cases heq
    cases hclose : closeOpenBrackets (opening :: closed) .default comments with
    | error brackets =>
      have hresult : closeAnnotation? comments (opening :: closed) = some (.error brackets) := by
        rw [closeAnnotation?, hclose]
      split
      · next hnone => rw [hresult] at hnone; cases hnone
      · next hsome => rw [hresult] at hsome; cases hsome; rfl
      · next hsome => rw [hresult] at hsome; cases hsome
    | ok stop =>
      obtain ⟨after, hslice, hvisit⟩ := visit_closed comments false hself hblanks hclose
      have hresult : closeAnnotation? comments (opening :: closed) =
          some (.ok (trimStart after)) := by
        rw [closeAnnotation?, hclose]
        simp only [hslice, Option.map_some]
      rw [← hsplit] at hvisit
      simp only [hvisit]
      split
      · next hnone => rw [hresult] at hnone; cases hnone
      · next hsome => rw [hresult] at hsome; cases hsome
      · next hsome => rw [hresult] at hsome; cases hsome; rfl

/-- The bracket that closes an annotation. -/
theorem steps_close {closing : Char} (hclosing : closing ∈ closingChars) (continued : Bool)
    (before rest : Str) :
    Steps comments (visitFrom? comments continued (atDepth 1) before)
      (fun rest => visitBehind? comments continued (trim rest)) (closing :: rest) rest := by
  obtain ⟨hblank, hnewline⟩ := blank_of_bracket (.inr hclosing)
  refine Steps.inLine [closing] (by simpa using Ne.symm hnewline) ?_
  have hscan := scan_close comments (atDepth 1) before rfl rfl hclosing
    (rest.takeWhile (· ≠ '\n'))
  rw [if_pos (show (atDepth 1).depth - 1 = 0 from rfl)] at hscan
  have hslice : sliceFrom (before ++ closing :: rest.takeWhile (· ≠ '\n'))
      (Str.len (before ++ [closing])) = some (rest.takeWhile (· ≠ '\n')) := by
    rw [sliceFrom, splitAtByte_eq_some.mpr ⟨by rw [List.append_assoc]; rfl, rfl⟩]
    rfl
  unfold visitFrom?
  simp only [List.singleton_append, trimStart_cons hblank, ite_self, hscan, hslice,
    Option.bind_some]

theorem closes_closing {opening closing : Char} (h : closes opening closing = true) :
    closing ∈ closingChars := by
  unfold closes at h
  split at h
  · simp [closingChars]
  · simp [closingChars]
  · simp [closingChars]
  · cases h

theorem nears_brackets {head rest : Str} {opening closing : Char} {tokens : List Token}
    (hhead : IsHead head opening) (hmatch : closes opening closing = true)
    (hread : ReadAll comments [opening] tokens (closing :: rest))
    (hbalanced : openBehind [] tokens = some []) :
    Nears comments (head ++ (opening :: (tokensText tokens ++ closing :: rest))) rest := by
  intro continued
  obtain ⟨first, more, hfirst, hblank, hslash, hnewline, hopening⟩ := hhead.parts
  have hopenLine := (blank_of_bracket (.inl hopening)).2
  have hstart : Steps comments (fun rest => visitBehind? comments continued (trim rest))
      (visitFrom? comments false (atDepth 0) [])
      (head ++ (opening :: (tokensText tokens ++ closing :: rest)))
      (opening :: (tokensText tokens ++ closing :: rest)) := by
    refine Steps.inLine head hnewline ?_
    have htake : (opening :: (tokensText tokens ++ closing :: rest)).takeWhile (· ≠ '\n') =
        opening :: (tokensText tokens ++ closing :: rest).takeWhile (· ≠ '\n') :=
      List.takeWhile_cons_of_pos (decide_eq_true hopenLine)
    rw [htake]
    show visitBehind? comments continued (trim (head ++ _)) = _
    rw [hfirst, List.cons_append, visitBehind?_start continued hblank hslash, ← List.cons_append,
      ← hfirst]
    exact visitCode?_brackets hhead _
  have hline : onLine [] [opening] = [opening] :=
    onLine_of_start (List.cons_ne_nil _ _) (by simpa using Ne.symm hopenLine)
      (by simpa using (blank_of_bracket (.inl hopening)).1)
  have hopen := moves_opening comments hopening 0 []
    (tokensText tokens ++ closing :: rest)
  rw [hline] at hopen
  obtain ⟨continued', hinside⟩ := (hopen.trans (moves_tokens hread hbalanced)) false
  exact ⟨continued', (hstart.trans hinside).trans
    (steps_close (closes_closing hmatch) continued' _ rest)⟩

theorem nears_prelude {text rest : Str} (h : Prelude comments rest text) :
    Nears comments (text ++ rest) rest := by
  induction h with
  | nil => exact fun continued => ⟨continued, Steps.refl rest⟩
  | blank hblank _ ih => exact (nears_blank hblank _).trans ih
  | bare hne hname hends _ ih =>
    rw [List.append_assoc]
    exact (nears_bare hne hname hends).trans ih
  | @brackets head text opening closing tokens hhead hmatch hread hbalanced _ ih =>
    have hassoc : head ++ opening :: (tokensText tokens ++ closing :: text) ++ rest =
        head ++ (opening :: (tokensText tokens ++ closing :: (text ++ rest))) := by
      simp
    rw [hassoc]
    exact (nears_brackets hhead hmatch hread hbalanced).trans ih

/-! ## The declaration -/

theorem rangesFrom?_isSome (comments : LineComments) (offset : Nat) (state : LineState) (lines : List Str) :
    ∃ ranges, rangesFrom? comments offset state lines = some ranges := by
  induction lines generalizing offset state with
  | nil => exact ⟨[], rfl⟩
  | cons line lines ih =>
    obtain ⟨state', code, hvisit, -⟩ := visitLine?_suffix comments state (trim (withoutNewline line))
    obtain ⟨ranges, hranges⟩ := ih (offset + Str.len line) state'
    rw [rangesFrom?, hvisit]
    simp only [bind, Option.bind, hranges]
    exact ⟨_, rfl⟩

theorem visitCode?_declaration {c : Char} {code : Str} (hc : startsCode c = true) :
    visitCode? comments (c :: code) = some (.start, some (c :: code)) := by
  simp only [startsCode, Bool.and_eq_true, Bool.not_eq_true', List.contains_eq_mem, List.mem_cons,
    List.not_mem_nil, or_false, decide_eq_false_iff_not, not_or] at hc
  obtain ⟨-, hat, hhash, hslash, hstar, hbracket⟩ := hc
  have hfound : annotation? (c :: code) = none := by
    unfold annotation?
    split
    · next heq => exact absurd (List.cons.inj heq).1 hat
    · next heq => exact absurd (List.cons.inj heq).1 hhash
    · next heq => exact absurd (List.cons.inj heq).1 hbracket
    · rfl
  have hkept : isSkipped (c :: code) = false := by
    simp [isSkipped, startsWith, List.isPrefixOf, Ne.symm hat, Ne.symm hhash, Ne.symm hslash,
      Ne.symm hstar, Ne.symm hbracket]
  rw [visitCode?, stripAnnotationPrefix?.eq_def]
  split
  · simp only [Option.map_some, hkept]
    rfl
  · next heq => rw [hfound] at heq; cases heq
  · next heq => rw [hfound] at heq; cases heq

theorem trim_cons {c : Char} (hc : isWhitespace c = false) (code : Str) :
    ∃ kept, trim (c :: code) = c :: kept := by
  have htrim : trim (c :: code) = trimEnd (c :: code) := by
    rw [trim, trimStart_cons hc]
    rfl
  have hne : trim (c :: code) ≠ [] := by
    intro hnil
    rw [htrim] at hnil
    have hall := List.rdropWhile_eq_nil_iff.mp hnil c List.mem_cons_self
    rw [hc] at hall
    cases hall
  obtain ⟨d, kept, hkept⟩ := List.exists_cons_of_ne_nil hne
  have hmem := head?_trimEnd (c :: code) d (by rw [← htrim, hkept]; rfl)
  obtain rfl : c = d := Option.some.inj hmem
  exact ⟨kept, hkept⟩

theorem trimEnd_withoutLast (text : Str) : trimEnd (withoutLast '\r' text) = trimEnd text := by
  unfold withoutLast
  split
  · next hlast =>
    obtain ⟨init, rfl⟩ := List.getLast?_eq_some_iff.mp hlast
    rw [List.dropLast_concat]
    exact (trimEnd_blank init (by simp [isWhitespace])).symm
  · rfl

theorem codeRange_declaration (lineStart : Nat) (full : Str) {c : Char} {code : Str}
    (hc : isWhitespace c = false) :
    codeRange lineStart (withoutLast '\r' (full ++ c :: code)) (trim (c :: code)) =
      (lineStart + Str.len full, lineStart + Str.len full + Str.len (trim (c :: code))) := by
  obtain ⟨kept, hkept⟩ := trim_cons hc code
  have hne : trim (c :: code) ≠ [] := by simp [hkept]
  have hself : trimEnd (c :: code) = trim (c :: code) := by
    rw [trim, trimStart_cons hc]
    rfl
  have hend : trimEnd (withoutLast '\r' (full ++ c :: code)) = full ++ trim (c :: code) := by
    rw [trimEnd_withoutLast, trimEnd_append full (by rwa [hself]), hself]
  have hsuffix : trim (c :: code) <:+ trim (withoutLast '\r' (full ++ c :: code)) := by
    rw [← trimStart_trimEnd (withoutLast '\r' _), hend, hkept, trimStart, List.dropWhile_append]
    split
    · rw [← trimStart, trimStart_cons hc]
    · exact List.suffix_append _ _
  obtain ⟨first, last, -, hfirst, hrange⟩ := codeRange_eq lineStart hsuffix hne
  rw [hend] at hfirst
  rw [hrange, List.append_cancel_right hfirst]

theorem ranges_declaration (continued : Bool) (lineStart : Nat) (full : Str) {c : Char}
    {code after : Str} (hc : startsCode c = true) (hline : '\n' ∉ c :: code)
    (hafter : ∀ d ∈ after.head?, d = '\n') :
    ∃ ranges, rangesBehind? comments lineStart full
        (fun rest => visitBehind? comments continued (trim rest)) (c :: code ++ after) =
      some ((lineStart + Str.len full, lineStart + Str.len full + Str.len (trim (c :: code))) ::
        ranges) := by
  have hblank : isWhitespace c = false ∧ c ≠ '/' := by
    simp only [startsCode, Bool.and_eq_true, Bool.not_eq_true', List.contains_eq_mem,
      List.mem_cons, decide_eq_false_iff_not, not_or] at hc
    exact ⟨hc.1, hc.2.2.2.1⟩
  have htake : (c :: code ++ after).takeWhile (· ≠ '\n') = c :: code := by
    rw [(takeWhile_newline hline after).1]
    cases after with
    | nil => exact List.append_nil _
    | cons d after =>
      rw [hafter d rfl, List.takeWhile_cons_of_neg (by simp), List.append_nil]
  obtain ⟨kept, hkept⟩ := trim_cons hblank.1 code
  have hvisit : visitBehind? comments continued (trim (c :: code)) =
      some (.start, some (trim (c :: code))) := by
    rw [visitBehind?_start continued hblank.1 hblank.2, hkept]
    exact visitCode?_declaration hc
  obtain ⟨ranges, hranges⟩ := rangesFrom?_isSome comments
    (lineStart + Str.len (full ++ c :: code) + 1) .start
    (splitInclusive ((c :: code ++ after).dropWhile (· ≠ '\n')).tail)
  refine ⟨ranges, ?_⟩
  unfold rangesBehind?
  simp only [htake, hvisit, bind, Option.bind, hranges, Option.map_some, Option.toList_some,
    codeRange_declaration lineStart full hblank.1]
  rfl

end

/-- No range of any text leaves its line, and the first one behind blank lines and annotations is
    the declaration. -/
theorem codeLineRanges_declaration (language : Str) :
    (∀ text, ∃ ranges, codeLineRanges? text language = some ranges ∧
      (∀ range ∈ ranges, InLine text range) ∧
      ranges.Pairwise fun left right => left.2 ≤ right.1) ∧
    ∀ before declaration after : Str,
      Prelude (.forLanguage language) (declaration ++ after) before →
      (∃ c ∈ declaration.head?, startsCode c = true) → '\n' ∉ declaration →
      (∀ c ∈ after.head?, c = '\n') →
      ∃ ranges, codeLineRanges? (before ++ declaration ++ after) language =
        some ((Str.len before, Str.len before + Str.len (trim declaration)) :: ranges) ∧
        Str.slice (before ++ declaration ++ after) (Str.len before)
          (Str.len before + Str.len (trim declaration)) = some (trim declaration) := by
  refine ⟨fun text => codeLineRanges?_inLine text language, ?_⟩
  intro before declaration after hprelude hstart hline hafter
  obtain ⟨c, hhead, hc⟩ := hstart
  cases declaration with
  | nil => cases hhead
  | cons first code =>
    obtain rfl : first = c := Option.some.inj hhead
    have hblank : isWhitespace first = false := by
      simp only [startsCode, Bool.and_eq_true, Bool.not_eq_true'] at hc
      exact hc.1
    obtain ⟨state', hnil⟩ := visitLine?_nil (.forLanguage language) .start
    obtain ⟨continued, hsteps⟩ := nears_prelude hprelude true
    obtain ⟨lineStart, full, heq, hplace⟩ := hsteps 0 []
    obtain ⟨ranges, hranges⟩ := ranges_declaration continued lineStart full hc hline hafter
    have hfirst : lineStart + Str.len full = Str.len before := by
      simp only [Str.len_append, Str.len_nil] at hplace
      omega
    refine ⟨ranges, ?_, ?_⟩
    · rw [hfirst] at hranges
      rw [codeLineRanges?, rangesFrom?_splitInclusive 0 _ hnil, List.append_assoc]
      exact heq.trans hranges
    · have htrim : trim (first :: code) = trimEnd (first :: code) := by
        rw [trim, trimStart_cons hblank]
        rfl
      obtain ⟨blanks, hblanks⟩ := List.rdropWhile_prefix isWhitespace (l := first :: code)
      refine Str.slice_eq_some.mpr ⟨before, blanks ++ after, ?_, rfl, rfl⟩
      rw [htrim, List.append_assoc, List.append_assoc, ← List.append_assoc (trimEnd _)]
      exact congrArg (fun middle => before ++ (middle ++ after)) hblanks.symm

/-- A bracket in a string does not end the annotation that is broken before it. -/
theorem codeLineRanges_declaration_sample :
    ∃ ranges, codeLineRanges? "@A(\n\")\")\nfn".toList "rust".toList = some ((9, 11) :: ranges) := by
  have hbody : StringBody .double [')'] := .char (by decide) (by decide) .nil
  have hlongest : ∀ other : StringDelimiter,
      other.chars <+: ['"', ')', '"', ')', '\n', 'f', 'n'] → other.chars.length ≤ 1 := by
    intro other hother
    cases other <;> simp_all [StringDelimiter.chars]
  have hread : ReadAll .mixed ['('] [.char '\n', .string .double [')']] [')', '\n', 'f', 'n'] :=
    ⟨⟨by decide, by decide, by decide, by simp, rfl⟩,
      ⟨hbody, fun _ => by decide, hlongest⟩, trivial⟩
  have hprelude : Prelude .mixed ['f', 'n'] "@A(\n\")\")\n".toList :=
    .brackets (.name (List.cons_ne_nil 'A' []) (List.forall_mem_singleton.mpr rfl)) rfl hread rfl
      (.blank (by decide) .nil)
  obtain ⟨ranges, hranges, -⟩ := (codeLineRanges_declaration "rust".toList).2
    "@A(\n\")\")\n".toList ['f', 'n'] [] hprelude ⟨'f', rfl, by decide⟩ (by decide) (by simp)
  exact ⟨ranges, hranges⟩

end CodeLines

end Ivygrep.Native
