import Ivygrep.ForStd.List
import Ivygrep.Native.RegexPrefilter
import Ivygrep.Spec.StrCorrect

/-!
# Soundness of the regex index prefilter

A match of a pattern, case-insensitive under Unicode simple case folding, contains
every required run of the pattern in its line, up to ASCII case. A document that
contains such a line is therefore a candidate.
-/

namespace Ivygrep.Native

/-! ## What a pattern matches -/

/-- Simple case folding as far as ASCII letters and digits are concerned: besides the
    two ASCII cases of a letter, only `K` (Kelvin) folds with `k` and `ſ` with `s`. -/
def FoldsAsciiOnly (fold : Char → Char) : Prop :=
  ∀ c d : Char, c.isAlphanum = true → fold c = fold d →
    c.toLower = d.toLower ∨ (c.toLower = 'k' ∧ d = '\u212a') ∨ (c.toLower = 's' ∧ d = 'ſ')

/-- The characters of a class. -/
def HirClass.Mem (c : Char) : HirClass → Prop
  | .unicode ranges => ∃ range ∈ ranges, range.1 ≤ c ∧ c ≤ range.2
  | .bytes ranges => ∃ range ∈ ranges, range.1.toNat ≤ c.toNat ∧ c.toNat ≤ range.2.toNat

section

variable (fold : Char → Char) (looksAt : Look → Str → Nat → Prop) (text : Str)

mutual

/-- The expression matches the characters `i..j` of the text. What an assertion means at
    a position is left to `looksAt`. -/
inductive Hir.Matches : Hir → Nat → Nat → Prop
  | empty (i : Nat) : Hir.Matches .empty i i
  | literal (chars : Str) (i : Nat)
      (h : chars.map fold = ((text.drop i).take chars.length).map fold) :
      Hir.Matches (.literal (Str.bytes chars)) i (i + chars.length)
  | class (cls : HirClass) (i : Nat) (c d : Char) (hc : text[i]? = some c) (hd : cls.Mem d)
      (h : fold c = fold d) : Hir.Matches (.class cls) i (i + 1)
  | look (look : Look) (i : Nat) (h : looksAt look text i) : Hir.Matches (.look look) i i
  | repetition (min count : Nat) (max : Option Nat) (greedy : Bool) (sub : Hir) (i j : Nat)
      (hmin : min ≤ count) (hmax : ∀ bound ∈ max, count ≤ bound)
      (h : Hir.MatchesAll (List.replicate count sub) i j) :
      Hir.Matches (.repetition min max greedy sub) i j
  | capture (index : Nat) (name : Option Str) (sub : Hir) (i j : Nat) (h : Hir.Matches sub i j) :
      Hir.Matches (.capture index name sub) i j
  | concat (subs : List Hir) (i j : Nat) (h : Hir.MatchesAll subs i j) :
      Hir.Matches (.concat subs) i j
  | alternation (subs : List Hir) (sub : Hir) (i j : Nat) (hsub : sub ∈ subs)
      (h : Hir.Matches sub i j) : Hir.Matches (.alternation subs) i j

/-- The expressions match consecutive parts of the characters `i..j`. -/
inductive Hir.MatchesAll : List Hir → Nat → Nat → Prop
  | nil (i : Nat) : Hir.MatchesAll [] i i
  | cons (sub : Hir) (subs : List Hir) (i j k : Nat) (h : Hir.Matches sub i j)
      (hrest : Hir.MatchesAll subs j k) : Hir.MatchesAll (sub :: subs) i k

end

/-- The line has a match of the expression. -/
def Hir.MatchesLine (hir : Hir) : Prop := ∃ i j, Hir.Matches fold looksAt text hir i j

/-- A literal is found in the text, up to case folding. -/
def LiteralOccurs (literal : List UInt8) : Prop :=
  ∃ chars found : Str, Str.bytes chars = literal ∧ found <:+: text ∧
    chars.map fold = found.map fold

end

/-! ## Required literals occur in a match -/

section

variable {fold : Char → Char} {looksAt : Look → Str → Nat → Prop} {line : Str}

mutual

/-- Each literal pushed for an expression occurs in every line that it matches. -/
theorem collectRequiredLiterals_occurs : ∀ (hir : Hir) (literals out : List (List UInt8))
    (i j : Nat), collectRequiredLiterals literals hir = some out →
    Hir.Matches fold looksAt line hir i j →
    ∀ literal ∈ out, literal ∈ literals ∨ LiteralOccurs fold line literal
  | .literal bytes, literals, out, i, _, hcollect, hmatch => by
    simp only [collectRequiredLiterals, Option.some.injEq] at hcollect
    subst hcollect
    intro literal hmem
    rcases List.mem_append.mp hmem with hold | hnew
    · exact .inl hold
    · cases hmatch with
      | literal chars _ heq =>
        refine .inr ⟨chars, (line.drop i).take chars.length, ?_, ?_, heq⟩
        · exact (List.mem_singleton.mp hnew).symm
        · exact (List.take_prefix _ _).isInfix.trans (List.drop_suffix _ _).isInfix
  | .repetition min max greedy sub, literals, out, i, j, hcollect, hmatch => by
    simp only [collectRequiredLiterals] at hcollect
    split at hcollect
    · -- A match has at least one repetition.
      rename_i hpos
      cases hmatch with
      | repetition _ count _ _ _ _ _ hmin _ hall =>
        obtain ⟨more, rfl⟩ : ∃ more, count = more + 1 := ⟨count - 1, by omega⟩
        rw [List.replicate_succ] at hall
        cases hall with
        | cons _ _ _ next _ hfirst _ =>
          exact collectRequiredLiterals_occurs sub literals out i next hcollect hfirst
    · obtain rfl := Option.some.inj hcollect
      exact fun literal hmem => .inl hmem
  | .capture index name sub, literals, out, i, j, hcollect, hmatch => by
    simp only [collectRequiredLiterals] at hcollect
    cases hmatch with
    | capture _ _ _ _ _ hsub =>
      exact collectRequiredLiterals_occurs sub literals out i j hcollect hsub
  | .concat subs, literals, out, i, j, hcollect, hmatch => by
    simp only [collectRequiredLiterals] at hcollect
    cases hmatch with
    | concat _ _ _ hall =>
      exact collectAllRequiredLiterals_occurs subs literals out i j hcollect hall
  | .alternation subs, literals, out, i, j, hcollect, hmatch => by
    simp [collectRequiredLiterals] at hcollect
  | .empty, literals, out, i, j, hcollect, hmatch => by
    simp only [collectRequiredLiterals, Option.some.injEq] at hcollect
    exact fun literal hmem => .inl (hcollect ▸ hmem)
  | .class cls, literals, out, i, j, hcollect, hmatch => by
    simp only [collectRequiredLiterals, Option.some.injEq] at hcollect
    exact fun literal hmem => .inl (hcollect ▸ hmem)
  | .look look, literals, out, i, j, hcollect, hmatch => by
    simp only [collectRequiredLiterals, Option.some.injEq] at hcollect
    exact fun literal hmem => .inl (hcollect ▸ hmem)

/-- The same for the parts of a concatenation. -/
theorem collectAllRequiredLiterals_occurs : ∀ (subs : List Hir)
    (literals out : List (List UInt8)) (i j : Nat),
    collectAllRequiredLiterals literals subs = some out →
    Hir.MatchesAll fold looksAt line subs i j →
    ∀ literal ∈ out, literal ∈ literals ∨ LiteralOccurs fold line literal
  | [], literals, out, i, j, hcollect, _ => by
    simp only [collectAllRequiredLiterals, Option.some.injEq] at hcollect
    exact fun literal hmem => .inl (hcollect ▸ hmem)
  | sub :: rest, literals, out, i, j, hcollect, hall => by
    simp only [collectAllRequiredLiterals, Option.bind_eq_some_iff] at hcollect
    obtain ⟨pushed, hsub, hrest⟩ := hcollect
    cases hall with
    | cons _ _ _ next _ hfirst hmore =>
      intro literal hmem
      rcases collectAllRequiredLiterals_occurs rest pushed out next j hrest hmore literal hmem
        with hpushed | hoccurs
      · exact collectRequiredLiterals_occurs sub literals pushed i next hsub hfirst literal
          hpushed
      · exact .inr hoccurs

end

end

/-! ## UTF-8 and ASCII -/

/-- The byte of an ASCII character is that character. -/
theorem charOfByte_ofNat {c : Char} (h : c.toNat ≤ 0x7f) :
    charOfByte (UInt8.ofNat c.toNat) = c := by
  rw [charOfByte, UInt8.toNat_ofNat', Nat.mod_eq_of_lt (by omega), Char.ofNat_toNat]

/-- ASCII bytes at the start of a text are its first characters. -/
theorem isPrefix_of_ascii {part : List UInt8} {s : Str} (hpart : ∀ byte ∈ part, byte < 0x80)
    (h : part <+: Str.bytes s) : part.map charOfByte <+: s := by
  induction s generalizing part with
  | nil => simp_all [Str.bytes]
  | cons c s ih =>
    cases part with
    | nil => simp
    | cons byte part =>
      have hbytes : Str.bytes (c :: s) = String.utf8EncodeChar c ++ Str.bytes s := rfl
      rw [hbytes] at h
      by_cases hc : c.toNat ≤ 0x7f
      · rw [Str.utf8EncodeChar_of_ascii hc, List.singleton_append] at h
        obtain ⟨rfl, hrest⟩ := List.cons_prefix_cons.mp h
        rw [List.map_cons, charOfByte_ofNat hc, List.prefix_cons_inj]
        exact ih (fun other hother => hpart other (List.mem_cons_of_mem _ hother)) hrest
      · -- The first byte of the text is not ASCII.
        obtain ⟨first, rest, hencode⟩ : ∃ first rest, String.utf8EncodeChar c = first :: rest :=
          List.exists_cons_of_ne_nil String.utf8EncodeChar_ne_nil
        rw [hencode, List.cons_append] at h
        obtain ⟨rfl, -⟩ := List.cons_prefix_cons.mp h
        exact absurd (hpart byte (by simp))
          (Str.not_ascii_of_mem_utf8EncodeChar hc byte (by simp [hencode]))

/-- Consecutive ASCII bytes of a text are consecutive characters of it. -/
theorem isInfix_of_ascii {part : List UInt8} {s : Str} (hne : part ≠ [])
    (hpart : ∀ byte ∈ part, byte < 0x80) (h : part <:+: Str.bytes s) :
    part.map charOfByte <:+: s := by
  induction s with
  | nil => simp_all [Str.bytes]
  | cons c s ih =>
    have hbytes : Str.bytes (c :: s) = String.utf8EncodeChar c ++ Str.bytes s := rfl
    by_cases hc : c.toNat ≤ 0x7f
    · rw [hbytes, Str.utf8EncodeChar_of_ascii hc, List.singleton_append, List.infix_cons_iff] at h
      rcases h with h | h
      · refine (isPrefix_of_ascii hpart ?_).isInfix
        rw [hbytes, Str.utf8EncodeChar_of_ascii hc, List.singleton_append]
        exact h
      · exact List.infix_cons (ih h)
    · rw [hbytes] at h
      exact List.infix_cons (ih (ForStd.isInfix_of_append hne hpart
        (Str.not_ascii_of_mem_utf8EncodeChar hc) h))

/-- ASCII case keeps letters and digits. -/
theorem toLower_isAlphanum {c : Char} (h : c.isAlphanum = true) :
    c.toLower.isAlphanum = true :=
  Str.forall_ascii (p := fun c => c.isAlphanum = true → c.toLower.isAlphanum = true)
    (by decide +kernel) (Str.ascii_of_isAlphanum h) h

/-- A character that is alphanumeric in lower case is an ASCII byte of a trigram. -/
theorem isAsciiAlphanumeric_of_toLower {c : Char} (h : c.toLower.isAlphanum = true) :
    c.toNat ≤ 0x7f ∧ isAsciiAlphanumeric (UInt8.ofNat c.toNat) = true := by
  have hc : c.toNat ≤ 0x7f := by
    by_contra hc
    -- A character above ASCII is its own lower case.
    have hlower : c.toLower = c :=
      dif_neg fun h => Str.not_le_of_not_ascii hc (by decide : 'Z'.val.toNat ≤ 0x7f) h.2
    exact hc (Str.ascii_of_isAlphanum (hlower ▸ h))
  exact ⟨hc, Str.forall_ascii (p := fun c => c.toLower.isAlphanum = true →
    isAsciiAlphanumeric (UInt8.ofNat c.toNat) = true) (by decide +kernel) hc h⟩

/-- A byte inside a run: its character has one other case at most. -/
theorem charOfByte_of_not_splitsRun (byte : UInt8) (h : splitsRun byte = false) :
    (charOfByte byte).isAlphanum = true ∧ (charOfByte byte).toLower ≠ 'k' ∧
      (charOfByte byte).toLower ≠ 's' ∧ (charOfByte byte).toLower.isAlphanum = true := by
  have hall : ∀ n : Fin 256, splitsRun (UInt8.ofNat n) = false →
      (charOfByte (UInt8.ofNat n)).isAlphanum = true ∧
        (charOfByte (UInt8.ofNat n)).toLower ≠ 'k' ∧
        (charOfByte (UInt8.ofNat n)).toLower ≠ 's' ∧
        (charOfByte (UInt8.ofNat n)).toLower.isAlphanum = true := by
    decide +kernel
  have := hall ⟨byte.toNat, byte.toNat_lt⟩
  rw [UInt8.ofNat_toNat] at this
  exact this h

/-! ## Runs -/

/-- A run of a literal: lower-case letters and digits, at least three. -/
theorem literalRuns_wellFormed {literal : List UInt8} {run : Str}
    (h : run ∈ literalRuns literal) :
    3 ≤ run.length ∧ ∀ c ∈ run, c.isAlphanum = true := by
  simp only [literalRuns, List.mem_map, List.mem_filter, Bool.and_eq_true,
    decide_eq_true_eq] at h
  obtain ⟨part, ⟨hpart, hlen, -⟩, rfl⟩ := h
  refine ⟨by simpa [Str.toAsciiLowercase] using hlen, fun c hc => ?_⟩
  simp only [Str.toAsciiLowercase, List.mem_map, exists_exists_and_eq_and] at hc
  obtain ⟨byte, hbyte, rfl⟩ := hc
  exact (charOfByte_of_not_splitsRun byte ((ForStd.mem_splitOnP hpart).2 byte hbyte)).2.2.2

/-- The runs of a literal that occurs in a line are in the lower-cased line. -/
theorem literalRuns_occur {fold : Char → Char} {line : Str} (hfold : FoldsAsciiOnly fold)
    {literal : List UInt8} (hoccurs : LiteralOccurs fold line literal) {run : Str}
    (h : run ∈ literalRuns literal) : run <:+: Str.toAsciiLowercase line := by
  obtain ⟨chars, found, rfl, hfound, heq⟩ := hoccurs
  simp only [literalRuns, List.mem_map, List.mem_filter, Bool.and_eq_true, decide_eq_true_eq,
    List.all_eq_true] at h
  obtain ⟨part, ⟨hpart, hlen, hascii⟩, rfl⟩ := h
  obtain ⟨hsegment, hsplit⟩ := ForStd.mem_splitOnP hpart
  have hne : part ≠ [] := by
    rintro rfl
    simp at hlen
  have hchars := isInfix_of_ascii hne hascii hsegment
  obtain ⟨matched, hmatched, hfolds⟩ := ForStd.exists_isInfix_of_map hchars heq
  -- Case folding relates the run to the matched text, hence so does ASCII case.
  have hlower : (part.map charOfByte).map Char.toLower = matched.map Char.toLower := by
    refine ForStd.map_eq_map_of_map_eq_map hfolds fun c hc d _ hcd => ?_
    obtain ⟨byte, hbyte, rfl⟩ := List.mem_map.mp hc
    obtain ⟨halnum, hk, hs, -⟩ := charOfByte_of_not_splitsRun byte (hsplit byte hbyte)
    rcases hfold _ d halnum hcd with h | ⟨h, -⟩ | ⟨h, -⟩
    · exact h
    · exact absurd h hk
    · exact absurd h hs
  rw [Str.toAsciiLowercase, Str.toAsciiLowercase, hlower]
  exact (hmatched.trans hfound).map Char.toLower

/-- What a required run is a run of. -/
theorem mem_requiredLiteralRuns {parse : Str → Option Hir} {pattern run : Str}
    {runs : List Str} (hruns : requiredLiteralRuns parse pattern = some runs)
    (h : run ∈ runs) :
    ∃ hir literals, parse pattern = some hir ∧ collectRequiredLiterals [] hir = some literals ∧
      ∃ literal ∈ literals, run ∈ literalRuns literal := by
  simp only [requiredLiteralRuns, Option.bind_eq_bind, Option.bind_eq_some_iff] at hruns
  obtain ⟨hir, hparse, literals, hcollect, hsome⟩ := hruns
  split at hsome
  · simp at hsome
  · obtain rfl := Option.some.inj hsome
    have hmem := ForStd.mem_of_mem_destutter h
    rw [sortRuns, List.mem_insertionSort, List.mem_flatMap] at hmem
    exact ⟨hir, literals, hparse, hcollect, hmem⟩

/-! ## Trigram tokens -/

/-- Bytes that are a trigram, and where `advance` finds the next one. -/
def IsTrigramAt (bytes : List UInt8) (start : Nat) : Prop :=
  start + 3 ≤ bytes.length ∧ ((bytes.drop start).take 3).all isAsciiAlphanumeric = true

/-- `advance` emits the first trigram at or after the cursor. -/
theorem advance_spec (bytes : List UInt8) (cursor : Nat) :
    (advance bytes cursor = none ∧ ∀ start, cursor ≤ start → ¬ IsTrigramAt bytes start) ∨
      ∃ start, advance bytes cursor = some (trigramToken bytes start, start + 1) ∧
        cursor ≤ start ∧ IsTrigramAt bytes start ∧
        ∀ earlier, cursor ≤ earlier → earlier < start → ¬ IsTrigramAt bytes earlier := by
  fun_induction advance bytes cursor with
  | case1 cursor hroom hall =>
    exact .inr ⟨cursor, rfl, Nat.le_refl _, ⟨hroom, hall⟩, fun _ h₁ h₂ => by omega⟩
  | case2 cursor hroom hall ih =>
    have hhere : ¬ IsTrigramAt bytes cursor := fun h => hall h.2
    rcases ih with ⟨hnone, hrest⟩ | ⟨start, hsome, hle, htrigram, hrest⟩
    · refine .inl ⟨hnone, fun start hstart => ?_⟩
      rcases Nat.eq_or_lt_of_le hstart with rfl | hlt
      · exact hhere
      · exact hrest start hlt
    · refine .inr ⟨start, hsome, by omega, htrigram, fun earlier hearlier hlt => ?_⟩
      rcases Nat.eq_or_lt_of_le hearlier with rfl | hlater
      · exact hhere
      · exact hrest earlier hlater hlt
  | case3 cursor hroom =>
    refine .inl ⟨rfl, fun start hstart h => ?_⟩
    have := h.1
    omega

/-- The tokens still to come are those of the trigrams from the cursor on. -/
theorem mem_tokensFrom {bytes : List UInt8} {token : Token} (cursor : Nat) :
    token ∈ tokensFrom bytes cursor ↔
      ∃ start, cursor ≤ start ∧ IsTrigramAt bytes start ∧ token = trigramToken bytes start := by
  fun_induction tokensFrom bytes cursor with
  | case1 cursor hnone =>
    rcases advance_spec bytes cursor with ⟨-, hrest⟩ | ⟨start, hsome, -⟩
    · simp only [List.not_mem_nil, false_iff]
      rintro ⟨start, hle, htrigram, -⟩
      exact hrest start hle htrigram
    · simp [hsome] at hnone
  | case2 cursor first next hsome _ ih =>
    rcases advance_spec bytes cursor with ⟨hnone, -⟩ | ⟨start, hsome', hle, htrigram, hrest⟩
    · simp [hnone] at hsome
    · rw [hsome, Option.some.injEq, Prod.mk.injEq] at hsome'
      obtain ⟨rfl, rfl⟩ := hsome'
      rw [List.mem_cons, ih]
      constructor
      · rintro (rfl | ⟨later, hlater, hmore⟩)
        · exact ⟨start, hle, htrigram, rfl⟩
        · exact ⟨later, by omega, hmore⟩
      · rintro ⟨later, hlater, hmore, rfl⟩
        rcases Nat.lt_trichotomy later start with hlt | rfl | hgt
        · exact absurd hmore (hrest later hlater hlt)
        · exact .inl rfl
        · exact .inr ⟨later, hgt, hmore, rfl⟩

/-- The tokenizer emits exactly the alphanumeric trigrams of the text's bytes. -/
theorem mem_trigramTokens {text : Str} {token : Token} :
    token ∈ trigramTokens text ↔
      ∃ start, IsTrigramAt (Str.bytes text) start ∧
        token = trigramToken (Str.bytes text) start := by
  simp [trigramTokens, mem_tokensFrom]

/-- Three consecutive letters or digits of the lower-cased text are the text of a token. -/
theorem exists_token_of_isInfix {text term : Str} (hfound : term <:+: Str.toAsciiLowercase text)
    (hlen : term.length = 3) (halnum : ∀ c ∈ term, c.isAlphanum = true) :
    ∃ token ∈ trigramTokens text, token.text = term := by
  obtain ⟨before, after, heq⟩ := hfound
  obtain ⟨front, back, rfl, hfront, -⟩ :=
    List.map_eq_append_iff.mp (show text.map Char.toLower = (before ++ term) ++ after from heq.symm)
  obtain ⟨front, found, rfl, -, rfl⟩ := List.map_eq_append_iff.mp hfront
  have hascii : ∀ c ∈ found, c.toNat ≤ 0x7f ∧ isAsciiAlphanumeric (UInt8.ofNat c.toNat) = true :=
    fun c hc => isAsciiAlphanumeric_of_toLower (halnum _ (List.mem_map_of_mem hc))
  have hbytes : Str.bytes found = found.map fun c => UInt8.ofNat c.toNat := by
    rw [Str.bytes, List.flatMap_congr fun c hc => Str.utf8EncodeChar_of_ascii (hascii c hc).1]
    exact List.map_eq_flatMap.symm
  have hslice : ((Str.bytes (front ++ found ++ back)).drop (Str.bytes front).length).take 3 =
      found.map fun c => UInt8.ofNat c.toNat := by
    rw [← hbytes]
    simp only [Str.bytes, List.flatMap_append, List.append_assoc, List.drop_left]
    refine List.take_left' ?_
    change (Str.bytes found).length = 3
    rw [hbytes, List.length_map, ← hlen, List.length_map]
  refine ⟨_, mem_trigramTokens.mpr ⟨(Str.bytes front).length, ⟨?_, ?_⟩, rfl⟩, ?_⟩
  · have := congrArg List.length hslice
    rw [List.length_map, List.length_take, List.length_drop] at this
    rw [List.length_map] at hlen
    omega
  · rw [hslice, List.all_map, List.all_eq_true]
    exact fun c hc => (hascii c hc).2
  · have hchars : (found.map fun c => UInt8.ofNat c.toNat).map charOfByte = found := by
      rw [List.map_map]
      exact (List.map_congr_left fun c hc => charOfByte_ofNat (hascii c hc).1).trans
        (List.map_id found)
    rw [trigramToken, hslice, hchars, Str.toAsciiLowercase]

/-! ## Candidate documents -/

/-- The length of a run in bytes is its length in characters. -/
theorem len_eq_length {run : Str} (h : ∀ c ∈ run, c.isAlphanum = true) :
    Str.len run = run.length := by
  induction run with
  | nil => rfl
  | cons c run ih =>
    have hc : c.toLower.isAlphanum = true := toLower_isAlphanum (h c (by simp))
    have hone : c.utf8Size = 1 :=
      Char.utf8Size_eq_one_iff.mpr (isAsciiAlphanumeric_of_toLower hc).1
    have hrest := ih fun d hd => h d (List.mem_cons_of_mem _ hd)
    simp only [Str.len, List.map_cons, List.sum_cons, hone, List.length_cons] at hrest ⊢
    omega

/-- A sampled offset leaves room for a trigram. -/
theorem le_of_mem_sampledOffsets {run : Str} {offset : Nat} (h : offset ∈ sampledOffsets run) :
    offset ≤ Str.len run - 3 := by
  have hmem := ForStd.mem_of_mem_destutter h
  simp only [List.mem_cons, List.not_mem_nil, or_false] at hmem
  omega

/-- A document whose tokens include every trigram of every run is a candidate. -/
theorem isCandidate_of_trigrams {runs : List Str} {text : Str}
    (hruns : ∀ run ∈ runs, 3 ≤ run.length ∧ ∀ c ∈ run, c.isAlphanum = true)
    (htokens : ∀ run ∈ runs, ∀ term, term <:+: run → term.length = 3 →
      ∃ token ∈ trigramTokens text, token.text = term) : isCandidate runs text = true := by
  simp only [isCandidate, List.all_eq_true, List.any_eq_true, beq_iff_eq]
  intro term hterm
  simp only [substringCandidateTerms, List.mem_flatMap, List.mem_map] at hterm
  obtain ⟨run, hrun, offset, hoffset, rfl⟩ := hterm
  have hrun := List.mem_of_mem_take hrun
  obtain ⟨hlen, halnum⟩ := hruns run hrun
  have hroom := le_of_mem_sampledOffsets hoffset
  rw [len_eq_length halnum] at hroom
  refine htokens run hrun _ ?_ (by simp; omega)
  exact (List.take_prefix _ _).isInfix.trans (List.drop_suffix _ _).isInfix

/-- The prefilter is sound: a line that the pattern matches contains every required run
    in lower case, and every document with that line has all trigrams of every run and is
    a candidate. -/
theorem requiredLiteralRuns_sound {fold : Char → Char} (hfold : FoldsAsciiOnly fold)
    (looksAt : Look → Str → Nat → Prop) {parse : Str → Option Hir} {pattern : Str} {hir : Hir}
    {runs : List Str} (hparse : parse pattern = some hir)
    (hruns : requiredLiteralRuns parse pattern = some runs) {line : Str}
    (hmatch : hir.MatchesLine fold looksAt line) :
    (∀ run ∈ runs, run <:+: Str.toAsciiLowercase line) ∧
      ∀ text, line <:+: text →
        (∀ run ∈ runs, ∀ term, term <:+: run → term.length = 3 →
          ∃ token ∈ trigramTokens text, token.text = term) ∧
        isCandidate runs text = true := by
  have hrun : ∀ run ∈ runs, run <:+: Str.toAsciiLowercase line ∧
      3 ≤ run.length ∧ ∀ c ∈ run, c.isAlphanum = true := by
    intro run hmem
    obtain ⟨hir', literals, hparse', hcollect, literal, hliteral, hmem⟩ :=
      mem_requiredLiteralRuns hruns hmem
    obtain rfl : hir = hir' := Option.some.inj (hparse.symm.trans hparse')
    obtain ⟨i, j, hij⟩ := hmatch
    have hoccurs : LiteralOccurs fold line literal := by
      rcases collectRequiredLiterals_occurs hir [] literals i j hcollect hij literal hliteral
        with h | h
      · simp at h
      · exact h
    exact ⟨literalRuns_occur hfold hoccurs hmem, literalRuns_wellFormed hmem⟩
  refine ⟨fun run hmem => (hrun run hmem).1, fun text htext => ?_⟩
  have htokens : ∀ run ∈ runs, ∀ term, term <:+: run → term.length = 3 →
      ∃ token ∈ trigramTokens text, token.text = term := by
    intro run hmem term hterm hlen
    obtain ⟨hline, -, halnum⟩ := hrun run hmem
    exact exists_token_of_isInfix ((hterm.trans hline).trans (htext.map Char.toLower)) hlen
      fun c hc => halnum c (hterm.subset hc)
  exact ⟨htokens, isCandidate_of_trigrams (fun run hmem => (hrun run hmem).2) htokens⟩

/-- Simple case folding of the ASCII letters, the Kelvin sign and the long s. -/
private def foldSample (c : Char) : Char :=
  if c = '\u212a' then 'k' else if c = 'ſ' then 's' else c.toLower

private theorem foldSample_foldsAsciiOnly : FoldsAsciiOnly foldSample := by
  intro c d hc hfold
  have hascii := (isAsciiAlphanumeric_of_toLower (toLower_isAlphanum hc)).1
  have hkelvin : c ≠ '\u212a' := by
    rintro rfl
    exact absurd hascii (by decide)
  have hlong : c ≠ 'ſ' := by
    rintro rfl
    exact absurd hascii (by decide)
  simp only [foldSample, if_neg hkelvin, if_neg hlong] at hfold
  split at hfold
  · exact .inr (.inl ⟨hfold, by assumption⟩)
  · split at hfold
    · exact .inr (.inr ⟨hfold, by assumption⟩)
    · exact .inl hfold

/-- `hello_\w+` matches `say HELLO_you`, so that line has the run `hello`. -/
theorem requiredLiteralRuns_sound_hello :
    "hello".toList <:+: Str.toAsciiLowercase "say HELLO_you".toList := by
  let parse : Str → Option Hir := fun _ => some (.concat
    [.literal (Str.bytes "hello_".toList),
      .repetition 1 none true (.class (.unicode [('a', 'z')]))])
  have hruns : requiredLiteralRuns parse [] = some ["hello".toList] := by decide +kernel
  have hmatch : Hir.MatchesLine foldSample (fun _ _ _ => False) "say HELLO_you".toList (.concat
      [.literal (Str.bytes "hello_".toList),
        .repetition 1 none true (.class (.unicode [('a', 'z')]))]) := by
    refine ⟨4, 11, .concat _ _ _ (.cons _ _ 4 10 11 (.literal "hello_".toList 4 ?_)
      (.cons _ _ 10 11 11 (.repetition 1 1 none true _ 10 11 (Nat.le_refl 1) (by simp)
        (.cons _ _ 10 11 11 (.class _ 10 'y' 'y' ?_ ?_ rfl) (.nil 11))) (.nil 11)))⟩
    · decide +kernel
    · decide +kernel
    · exact ⟨('a', 'z'), by simp, by decide⟩
  exact (requiredLiteralRuns_sound foldSample_foldsAsciiOnly _ rfl hruns hmatch).1 _ (by simp)

end Ivygrep.Native
