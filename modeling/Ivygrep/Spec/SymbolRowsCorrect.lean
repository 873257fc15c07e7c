import Ivygrep.ForStd.Exchange
import Ivygrep.Native.SymbolRows
import Ivygrep.Spec.SymbolSearchCorrect

/-!
# Definitions by their qualified names

A definition is found under its owner unless its chunk has the name under another owner before it:
`symbols` has one row for a name and a chunk.

## Key results

- `parseSymbolQuery_qualified`: the query of a qualified name
- `exists_definitionRow`: the row of a definition
- `searchSymbolsInIndex_unlimited`: a search without a limit
- `definition_reachable`: definitions by their qualified names
- `second_owner_lost`: a name under two owners in one chunk
-/

namespace Ivygrep.Native.Symbols

open ForStd Compression

/-! ## Names -/

section

variable {isXidContinue : Char → Bool}

/-- The characters between an owner and a name. -/
def separators : List Char := [':', '.', '#', '-', '>']

theorem separators_eq : ":.#->".toList = separators := by decide +kernel

/-- What `unicode_ident` documents: separators and blanks are not in `XID_Continue`. -/
structure XidDocumented (isXidContinue : Char → Bool) : Prop where
  separator : ∀ c ∈ separators, isXidContinue c = false
  blanks : ∀ c, isWhitespace c → isXidContinue c = false

/-- A text of identifier characters. -/
def IsIdentifier (isXidContinue : Char → Bool) (text : Str) : Prop :=
  ∀ c ∈ text, isIdentifierCharacter isXidContinue c

/-- What `canonical_symbol` cuts from the ends. -/
def isOuter (isXidContinue : Char → Bool) (c : Char) : Bool :=
  c == '$' || !isIdentifierCharacter isXidContinue c

theorem XidDocumented.not_identifier (h : XidDocumented isXidContinue) {c : Char}
    (hc : c ∈ separators) : isIdentifierCharacter isXidContinue c = false := by
  have hxid := h.separator c hc
  simp only [separators, List.mem_cons, List.not_mem_nil, or_false] at hc
  rcases hc with rfl | rfl | rfl | rfl | rfl <;> simp [isIdentifierCharacter, hxid]

theorem XidDocumented.not_whitespace (h : XidDocumented isXidContinue) {c : Char}
    (hc : isIdentifierCharacter isXidContinue c) : isWhitespace c = false := by
  by_contra hblank
  rw [Bool.not_eq_false] at hblank
  have hxid := h.blanks c hblank
  have hothers : c ≠ '$' ∧ c ≠ '\u200c' ∧ c ≠ '\u200d' := by
    refine ⟨?_, ?_, ?_⟩ <;> (rintro rfl; exact absurd hblank (by decide))
  simp [isIdentifierCharacter, hxid, hothers] at hc

theorem trim_eq_self {text : Str} (h : ∀ c ∈ text, isWhitespace c = false) :
    Str.trim text = text := by
  have hstart : Str.trimStart text = text := by
    cases text with
    | nil => rfl
    | cons c text => exact List.dropWhile_cons_of_neg (by simp [h c])
  rw [Str.trim, hstart]
  rw [List.rdropWhile_eq_self_iff]
  intro hne
  simp [h _ (List.getLast_mem hne)]

/-- A text without blanks loses what is outer at its ends. -/
theorem canonicalSymbol_eq (before text after : Str)
    (hblank : ∀ c ∈ before ++ text ++ after, isWhitespace c = false)
    (hbefore : ∀ c ∈ before, isOuter isXidContinue c)
    (hafter : ∀ c ∈ after, isOuter isXidContinue c)
    (hfirst : ∀ c ∈ text.head?, isOuter isXidContinue c = false)
    (hlast : ∀ c ∈ text.getLast?, isOuter isXidContinue c = false) (hne : text ≠ []) :
    canonicalSymbol isXidContinue (before ++ text ++ after) = text := by
  show ((Str.trim (before ++ text ++ after)).dropWhile (isOuter isXidContinue)).rdropWhile
    (isOuter isXidContinue) = text
  obtain ⟨c, rest, rfl⟩ := List.exists_cons_of_ne_nil hne
  have hdrop : (before ++ (c :: rest) ++ after).dropWhile (isOuter isXidContinue) =
      (c :: rest) ++ after := by
    rw [List.append_assoc, List.dropWhile_append_of_pos hbefore, List.cons_append,
      List.dropWhile_cons_of_neg (by simp [hfirst c rfl])]
  rw [trim_eq_self hblank, hdrop, List.rdropWhile, List.reverse_append,
    List.dropWhile_append_of_pos (by simpa using hafter)]
  have hend : (c :: rest).rdropWhile (isOuter isXidContinue) = c :: rest := by
    rw [List.rdropWhile_eq_self_iff]
    intro hnil
    rw [hlast _ (List.getLast?_eq_some_getLast hnil)]
    simp
  exact hend

theorem isOuter_eq {c : Char} (h : isIdentifierCharacter isXidContinue c) :
    isOuter isXidContinue c = (c == '$') := by
  simp [isOuter, h]

/-- An identifier is its core between sigils, unless it has nothing but sigils. -/
theorem exists_core {name : Str} (hsigil : ∃ c ∈ name, c ≠ '$') :
    ∃ before core after, name = before ++ core ++ after ∧ (∀ c ∈ before, c = '$') ∧
      (∀ c ∈ after, c = '$') ∧ (∀ c ∈ core.head?, c ≠ '$') ∧ (∀ c ∈ core.getLast?, c ≠ '$') ∧
      core ≠ [] := by
  let sigil (c : Char) : Bool := c == '$'
  have hcore : (name.dropWhile sigil).rdropWhile sigil ≠ [] := by
    intro hnil
    rw [List.rdropWhile_eq_nil_iff] at hnil
    obtain ⟨c, hc, hne⟩ := hsigil
    rw [← List.takeWhile_append_dropWhile (p := sigil) (l := name), List.mem_append] at hc
    rcases hc with hc | hc
    · exact hne (by simpa [sigil] using List.mem_takeWhile_imp hc)
    · exact hne (by simpa [sigil] using hnil c hc)
  refine ⟨name.takeWhile sigil, (name.dropWhile sigil).rdropWhile sigil,
    (name.dropWhile sigil).rtakeWhile sigil, ?_, ?_, ?_, ?_, ?_, hcore⟩
  · rw [List.append_assoc, List.rdropWhile_append_rtakeWhile, List.takeWhile_append_dropWhile]
  · exact fun c hc => by simpa [sigil] using List.mem_takeWhile_imp hc
  · exact fun c hc => by simpa [sigil] using List.mem_rtakeWhile_imp hc
  · intro c hc
    obtain ⟨rest, hrest⟩ := List.rdropWhile_prefix sigil (name.dropWhile sigil)
    have hhead : (name.dropWhile sigil).head? = some c := by
      rw [← hrest, List.head?_append, hc, Option.some_or]
    have hnot := List.head?_dropWhile_not sigil name
    rw [hhead] at hnot
    simpa [sigil] using hnot
  · intro c hc
    have hnot := List.rdropWhile_last_not sigil (name.dropWhile sigil) hcore
    rw [List.getLast?_eq_some_getLast hcore, Option.mem_def, Option.some.injEq] at hc
    rw [hc] at hnot
    simpa [sigil] using hnot

/-! ## Places of separators -/

theorem getLast?_filter_range {p : Nat → Bool} {k n : Nat} (hk : k < n) (hp : p k)
    (hlater : ∀ j, k < j → j < n → p j = false) : ((List.range n).filter p).getLast? = some k := by
  induction n with
  | zero => omega
  | succ n ih =>
    rw [List.range_succ, List.filter_append]
    rcases Nat.lt_or_eq_of_le (Nat.le_of_lt_succ hk) with hlt | rfl
    · have hnone : [n].filter p = [] := by simp [hlater n hlt (Nat.lt_succ_self n)]
      rw [hnone, List.append_nil]
      exact ih hlt fun j hj hjn => hlater j hj (Nat.lt_succ_of_lt hjn)
    · have hlast : [k].filter p = [k] := by simp [hp]
      rw [hlast, List.getLast?_concat]

theorem rfind_append (before pattern after : Str) {c : Char} (h : c ∉ pattern ++ after) :
    rfind (before ++ (c :: pattern) ++ after) (c :: pattern) = some before.length := by
  refine getLast?_filter_range (by simp) ?_ fun j hj hlt => ?_
  · rw [List.append_assoc, List.drop_left]
    exact List.isPrefixOf_iff_prefix.mpr (List.prefix_append _ _)
  · rw [Bool.eq_false_iff]
    intro hstarts
    apply h
    obtain ⟨rest, hrest⟩ := List.isPrefixOf_iff_prefix.mp hstarts
    obtain ⟨i, rfl⟩ := Nat.exists_eq_add_of_lt hj
    have hdrop : (before ++ (c :: pattern) ++ after).drop (before.length + i + 1) =
        (pattern ++ after).drop i := by
      rw [List.append_assoc, Nat.add_assoc, ← List.drop_drop, List.drop_left, List.cons_append,
        List.drop_succ_cons]
    have hmem : c ∈ (pattern ++ after).drop i := by
      rw [← hdrop, ← hrest]
      simp
    exact List.mem_of_mem_drop hmem

theorem rfind_eq_none {text : Str} {c : Char} {pattern : Str} (h : c ∉ text) :
    rfind text (c :: pattern) = none := by
  rw [rfind, List.getLast?_eq_none_iff, List.filter_eq_nil_iff]
  intro i _ hstarts
  obtain ⟨rest, hrest⟩ := List.isPrefixOf_iff_prefix.mp hstarts
  exact h (List.mem_of_mem_drop (i := i) (by rw [← hrest]; simp))

/-! ## Qualified queries -/

/-- What stands between an owner and a name. -/
def qualifiers : List Str := [[':', ':'], ['.'], ['#'], ['-', '>']]

theorem XidDocumented.not_mem (h : XidDocumented isXidContinue) {text : Str}
    (htext : IsIdentifier isXidContinue text) {c : Char} (hc : c ∈ separators) : c ∉ text := by
  intro hmem
  have hyes := htext c hmem
  rw [h.not_identifier hc] at hyes
  cases hyes

/-- The last separator of a qualified name is in its qualifier. -/
theorem lastSeparator_qualified (h : XidDocumented isXidContinue) {owner rest qualifier : Str}
    (howner : IsIdentifier isXidContinue owner) (hrest : IsIdentifier isXidContinue rest)
    (hqualifier : qualifier ∈ qualifiers) :
    ∃ tail separator, qualifier = tail ++ separator ∧ (tail = [] ∨ tail = [':']) ∧
      lastSeparator (owner ++ qualifier ++ rest) =
        some ((owner ++ tail).length, separator.length) := by
  have hnotOwner : ∀ c ∈ separators, c ∉ owner := fun c hc => h.not_mem howner hc
  have hnotRest : ∀ c ∈ separators, c ∉ rest := fun c hc => h.not_mem hrest hc
  simp only [separators, List.forall_mem_cons] at hnotOwner hnotRest
  obtain ⟨ho1, ho2, ho3, ho4, -⟩ := hnotOwner
  obtain ⟨hr1, hr2, hr3, hr4, -⟩ := hnotRest
  have hseparators : [":".toList, ".".toList, "#".toList, "->".toList] =
      [[':'], ['.'], ['#'], ['-', '>']] := by decide +kernel
  simp only [qualifiers, List.mem_cons, List.not_mem_nil, or_false] at hqualifier
  unfold lastSeparator
  rw [hseparators]
  simp only [List.foldl_cons, List.foldl_nil]
  -- The one separator that the text has is found, and the others are not.
  rcases hqualifier with rfl | rfl | rfl | rfl
  · refine ⟨[':'], [':'], rfl, .inr rfl, ?_⟩
    have hfound := rfind_append (owner ++ [':']) [] rest (c := ':') hr1
    rw [List.append_assoc owner] at hfound
    rw [show owner ++ [':', ':'] ++ rest = owner ++ ([':'] ++ [':']) ++ rest from rfl, hfound,
      rfind_eq_none (c := '.') (by simp [ho2, hr2]), rfind_eq_none (c := '#') (by simp [ho3, hr3]),
      rfind_eq_none (c := '-') (by simp [ho4, hr4])]
    rfl
  · refine ⟨[], ['.'], rfl, .inl rfl, ?_⟩
    rw [rfind_append owner [] rest (c := '.') hr2,
      rfind_eq_none (c := ':') (by simp [ho1, hr1]), rfind_eq_none (c := '#') (by simp [ho3, hr3]),
      rfind_eq_none (c := '-') (by simp [ho4, hr4]), List.append_nil]
    rfl
  · refine ⟨[], ['#'], rfl, .inl rfl, ?_⟩
    rw [rfind_append owner [] rest (c := '#') hr3,
      rfind_eq_none (c := ':') (by simp [ho1, hr1]), rfind_eq_none (c := '.') (by simp [ho2, hr2]),
      rfind_eq_none (c := '-') (by simp [ho4, hr4]), List.append_nil]
    rfl
  · refine ⟨[], ['-', '>'], rfl, .inl rfl, ?_⟩
    rw [rfind_append owner ['>'] rest (c := '-') (by simp [hr4]),
      rfind_eq_none (c := ':') (by simp [ho1, hr1]), rfind_eq_none (c := '.') (by simp [ho2, hr2]),
      rfind_eq_none (c := '#') (by simp [ho3, hr3]), List.append_nil]
    rfl

/-- The last part of a qualifier. -/
theorem find?_parts (h : XidDocumented isXidContinue) {owner tail : Str}
    (howner : IsIdentifier isXidContinue owner) (hne : owner ≠ [])
    (htail : tail = [] ∨ tail = [':']) :
    (((owner ++ tail).splitOnP fun c => ":.#->".toList.contains c).reverse.find?
      fun part => !part.isEmpty) = some owner := by
  rw [separators_eq]
  have hparts : ∀ c ∈ owner, separators.contains c = false := by
    intro c hc
    by_contra hmem
    rw [Bool.not_eq_false, List.contains_iff_mem] at hmem
    exact h.not_mem howner hmem hc
  rcases htail with rfl | rfl
  · rw [List.append_nil, List.splitOnP_eq_singleton hparts]
    simp [hne]
  · rw [List.splitOnP_append_cons_of_forall_mem hparts ':' (by decide), List.splitOnP_nil]
    simp [hne]

theorem IsIdentifier.append {left right : Str} (hleft : IsIdentifier isXidContinue left)
    (hright : IsIdentifier isXidContinue right) : IsIdentifier isXidContinue (left ++ right) := by
  intro c hc
  rcases List.mem_append.mp hc with hc | hc
  · exact hleft c hc
  · exact hright c hc

theorem isOuter_sigil {c : Char} (hc : c = '$') : isOuter isXidContinue c = true := by
  simp [isOuter, hc]

theorem IsIdentifier.not_outer {text : Str} (htext : IsIdentifier isXidContinue text) {c : Char}
    (hc : c ∈ text) (hsigil : c ≠ '$') : isOuter isXidContinue c = false := by
  rw [isOuter_eq (htext c hc)]
  simp [hsigil]

/-- What the table keeps of a name. -/
theorem canonicalSymbol_core (h : XidDocumented isXidContinue) (before core after : Str)
    (hname : IsIdentifier isXidContinue (before ++ core ++ after))
    (hbefore : ∀ c ∈ before, c = '$') (hafter : ∀ c ∈ after, c = '$')
    (hfirst : ∀ c ∈ core.head?, c ≠ '$') (hlast : ∀ c ∈ core.getLast?, c ≠ '$') (hne : core ≠ []) :
    canonicalSymbol isXidContinue (before ++ core ++ after) = core := by
  have hcore : IsIdentifier isXidContinue core := fun c hc => hname c (by simp [hc])
  apply canonicalSymbol_eq
  · exact fun c hc => h.not_whitespace (hname c hc)
  · exact fun c hc => isOuter_sigil (hbefore c hc)
  · exact fun c hc => isOuter_sigil (hafter c hc)
  · exact fun c hc => hcore.not_outer (List.mem_of_mem_head? hc) (hfirst c hc)
  · exact fun c hc => hcore.not_outer (List.mem_of_getLast? hc) (hlast c hc)
  · exact hne

/-- A name that the table can have: an identifier that is not only sigils. -/
structure IsName (isXidContinue : Char → Bool) (name : Str) : Prop where
  identifier : IsIdentifier isXidContinue name
  not_sigils : ∃ c ∈ name, c ≠ '$'

/-- An owner that a query can have: an identifier that does not start with a sigil. -/
structure IsOwner (isXidContinue : Char → Bool) (owner : Str) : Prop where
  identifier : IsIdentifier isXidContinue owner
  not_sigil : ∃ c ∈ owner.head?, c ≠ '$'

theorem IsName.core (h : XidDocumented isXidContinue) {name : Str}
    (hname : IsName isXidContinue name) :
    canonicalSymbol isXidContinue name ≠ [] ∧
      IsIdentifier isXidContinue (canonicalSymbol isXidContinue name) ∧
      canonicalSymbol isXidContinue (canonicalSymbol isXidContinue name) =
        canonicalSymbol isXidContinue name := by
  obtain ⟨before, core, after, rfl, hbefore, hafter, hfirst, hlast, hne⟩ :=
    exists_core hname.not_sigils
  have hcore : IsIdentifier isXidContinue core := fun c hc => hname.identifier c (by simp [hc])
  have hself := canonicalSymbol_core h [] core [] (by simpa using hcore) (by simp) (by simp)
    hfirst hlast hne
  rw [List.nil_append, List.append_nil] at hself
  rw [canonicalSymbol_core h before core after hname.identifier hbefore hafter hfirst hlast hne]
  exact ⟨hne, hcore, hself⟩

/-- The query of a plain name. -/
theorem parseSymbolQuery_plain (h : XidDocumented isXidContinue) {name : Str}
    (hname : IsName isXidContinue name) :
    parseSymbolQuery isXidContinue name = ⟨canonicalSymbol isXidContinue name, none⟩ := by
  obtain ⟨-, hcore, -⟩ := hname.core h
  have hnone : lastSeparator (canonicalSymbol isXidContinue name) = none := by
    generalize canonicalSymbol isXidContinue name = core at hcore
    have hseparators : [":".toList, ".".toList, "#".toList, "->".toList] =
        [[':'], ['.'], ['#'], ['-', '>']] := by decide +kernel
    have hnot : ∀ c ∈ separators, ∀ pattern, rfind core (c :: pattern) = none :=
      fun c hc pattern => rfind_eq_none (h.not_mem hcore hc)
    simp only [separators, List.forall_mem_cons] at hnot
    unfold lastSeparator
    rw [hseparators]
    simp only [List.foldl_cons, List.foldl_nil, hnot.1, hnot.2.1, hnot.2.2.1, hnot.2.2.2.1]
  unfold parseSymbolQuery
  simp only [hnone]

/-- Only the end of a qualified name is cut. -/
theorem canonicalSymbol_qualified (h : XidDocumented isXidContinue)
    {owner qualifier before core after : Str} (howner : IsOwner isXidContinue owner)
    (hqualifier : qualifier ∈ qualifiers)
    (hname : IsIdentifier isXidContinue (before ++ core ++ after)) (hafter : ∀ c ∈ after, c = '$')
    (hlast : ∀ c ∈ core.getLast?, c ≠ '$') (hne : core ≠ []) :
    canonicalSymbol isXidContinue (owner ++ qualifier ++ (before ++ core ++ after)) =
      owner ++ qualifier ++ (before ++ core) := by
  have hcore : IsIdentifier isXidContinue core := fun c hc => hname c (by simp [hc])
  have hqualifierBlank : ∀ c ∈ qualifier, isWhitespace c = false := by
    have hall : ∀ qualifier ∈ qualifiers, ∀ c ∈ qualifier, c ∈ separators := by
      simp [qualifiers, separators]
    intro c hc
    have hseparator := hall qualifier hqualifier c hc
    simp only [separators, List.mem_cons, List.not_mem_nil, or_false] at hseparator
    rcases hseparator with rfl | rfl | rfl | rfl | rfl <;> decide
  obtain ⟨first, hfirst, hsigil⟩ := howner.not_sigil
  rw [← List.append_assoc (owner ++ qualifier),
    ← List.nil_append (owner ++ qualifier ++ (before ++ core) ++ after), ← List.append_assoc]
  apply canonicalSymbol_eq [] (owner ++ qualifier ++ (before ++ core)) after
  · intro c hc
    simp only [List.mem_append, List.not_mem_nil, false_or] at hc
    rcases hc with ((hc | hc) | hc | hc) | hc
    · exact h.not_whitespace (howner.identifier c hc)
    · exact hqualifierBlank c hc
    all_goals exact h.not_whitespace (hname c (by simp [hc]))
  · simp
  · exact fun c hc => isOuter_sigil (hafter c hc)
  · intro c hc
    rw [List.append_assoc, List.head?_append, hfirst, Option.some_or, Option.mem_def,
      Option.some.injEq] at hc
    rw [← hc]
    exact howner.identifier.not_outer (List.mem_of_mem_head? hfirst) hsigil
  · intro c hc
    rw [List.getLast?_append, List.getLast?_append, List.getLast?_eq_some_getLast hne,
      Option.some_or, Option.some_or] at hc
    rw [← List.getLast?_eq_some_getLast hne] at hc
    exact hcore.not_outer (List.mem_of_getLast? hc) (hlast c hc)
  · simp [hne]

/-- The query of a qualified name. -/
theorem parseSymbolQuery_qualified (h : XidDocumented isXidContinue) {owner name qualifier : Str}
    (howner : IsOwner isXidContinue owner) (hname : IsName isXidContinue name)
    (hqualifier : qualifier ∈ qualifiers) :
    parseSymbolQuery isXidContinue (owner ++ qualifier ++ name) =
      ⟨canonicalSymbol isXidContinue name, some owner⟩ := by
  obtain ⟨hcoreNe, hcoreName, -⟩ := hname.core h
  obtain ⟨before, core, after, rfl, hbefore, hafter, hfirst, hlast, hne⟩ :=
    exists_core hname.not_sigils
  rw [canonicalSymbol_core h before core after hname.identifier hbefore hafter hfirst hlast hne] at hcoreName ⊢
  have hrest : IsIdentifier isXidContinue (before ++ core) :=
    fun c hc => hname.identifier c (List.mem_append_left _ hc)
  have hcut := canonicalSymbol_core h before core [] (by simpa using hrest) hbefore (by simp) hfirst
    hlast hne
  rw [List.append_nil] at hcut
  obtain ⟨tail, separator, rfl, htail, hsplit⟩ :=
    lastSeparator_qualified h howner.identifier hrest hqualifier
  have howned : owner ≠ [] := by
    rintro rfl
    obtain ⟨c, hc, -⟩ := howner.not_sigil
    simp at hc
  unfold parseSymbolQuery
  simp only [canonicalSymbol_qualified h howner hqualifier hname.identifier hafter hlast hne, hsplit]
  have hregroup : owner ++ (tail ++ separator) ++ (before ++ core) =
      (owner ++ tail) ++ (separator ++ (before ++ core)) := by simp
  rw [hregroup, List.take_left, ← List.drop_drop, List.drop_left, List.drop_left, hcut,
    find?_parts h howner.identifier howned htail]
  have hall : core.all (isIdentifierCharacter isXidContinue) = true := List.all_eq_true.mpr hcoreName
  simp [hne, hall]

/-- A qualified name is not empty for the search. -/
theorem normalizeSymbol_qualified_ne (h : XidDocumented isXidContinue)
    {owner name qualifier : Str} (howner : IsOwner isXidContinue owner)
    (hname : IsName isXidContinue name) (hqualifier : qualifier ∈ qualifiers) :
    ¬ (normalizeSymbol isXidContinue
      (canonicalSymbol isXidContinue (owner ++ qualifier ++ name))).isEmpty := by
  obtain ⟨before, core, after, rfl, -, hafter, -, hlast, hne⟩ := exists_core hname.not_sigils
  have hrest : IsIdentifier isXidContinue (before ++ core ++ []) :=
    fun c hc => hname.identifier c (List.mem_append_left _ (by simpa using hc))
  have hagain := canonicalSymbol_qualified h howner hqualifier hrest (by simp) hlast hne
  rw [List.append_nil] at hagain
  rw [canonicalSymbol_qualified h howner hqualifier hname.identifier hafter hlast hne, normalizeSymbol,
    hagain]
  simp [Str.toAsciiLowercase, hne]

theorem normalizeSymbol_plain_ne (h : XidDocumented isXidContinue) {name : Str}
    (hname : IsName isXidContinue name) :
    ¬ (normalizeSymbol isXidContinue (canonicalSymbol isXidContinue name)).isEmpty := by
  obtain ⟨hne, -, hself⟩ := hname.core h
  rw [normalizeSymbol, hself]
  simp [Str.toAsciiLowercase, hne]

end

/-! ## Searches without a limit -/

namespace SymbolSearch

variable {zstd : Zstd} {search : SymbolSearch}

/-- A limit that no row reaches is none. -/
theorem queryRows_none {n : Nat} (query : SymbolQuery) (shadowed : Str → Bool)
    {rows : List (DefinitionRow zstd)} {hits : List (Nat × SearchHit Str)} {tier : Option Nat}
    (h : hits.length + rows.length < n) :
    search.queryRows none query shadowed hits tier rows =
      search.queryRows (some n) query shadowed hits tier rows := by
  induction rows generalizing hits tier with
  | nil => rfl
  | cons row rows ih =>
    rw [List.length_cons] at h
    have hnext : ∀ later laterTier, later.length ≤ hits.length + 1 →
        search.queryRows none query shadowed later laterTier rows =
          search.queryRows (some n) query shadowed later laterTier rows :=
      fun later laterTier hlater => ih (by omega)
    have hroom : ∀ hit, ¬ n ≤ (hits ++ [hit]).length := by
      intro hit
      rw [List.length_append, List.length_singleton]
      omega
    simp only [queryRows, row.chunk.read_eq, Option.any_none, Option.any_some, decide_eq_true_eq,
      hroom, if_false, Bool.false_eq_true]
    rw [hnext hits tier (by omega), hnext (hits ++ _) _ (by simp)]

theorem length_leadingTier {α : Type} (tier : α → Nat) (hits : List α) :
    (leadingTier tier hits).length ≤ hits.length := by
  cases hits with
  | nil => rfl
  | cons first hits =>
    rw [leadingTier_cons]
    exact List.length_filter_le _ _

theorem queryWorkspaceDb_none (tables : Tables zstd) {name : Str} (shadowed : Str → Bool)
    (hname : ¬ (normalizeSymbol search.isXidContinue
      (canonicalSymbol search.isXidContinue name)).isEmpty) :
    search.queryWorkspaceDb none tables (parseSymbolQuery search.isXidContinue name)
        (normalizeSymbol search.isXidContinue (parseSymbolQuery search.isXidContinue name).name)
        shadowed = .ok (leadingTier Prod.fst (search.visibleHits tables name shadowed)) := by
  let query := parseSymbolQuery search.isXidContinue name
  let rows := tables.rows query (normalizeSymbol search.isXidContinue query.name)
  have hlimit : search.queryWorkspaceDb none tables query
      (normalizeSymbol search.isXidContinue query.name) shadowed =
        search.queryWorkspaceDb (some (rows.length + 1)) tables query
          (normalizeSymbol search.isXidContinue query.name) shadowed := by
    rw [queryWorkspaceDb, queryWorkspaceDb, if_neg (by simp), if_neg (by simp)]
    exact queryRows_none query shadowed (by simp [rows])
  have hfew : (search.visibleHits tables name shadowed).length ≤ rows.length := by
    rw [visibleHits, if_neg hname, List.length_map]
    exact List.length_filter_le _ _
  rw [hlimit, queryWorkspaceDb_visible (Nat.succ_pos _) tables shadowed hname]
  have hleading := length_leadingTier Prod.fst (search.visibleHits tables name shadowed)
  rw [List.take_of_length_le (by omega)]

theorem queryBase_none (stores : Stores zstd) {name : Str}
    (hname : ¬ (normalizeSymbol search.isXidContinue
      (canonicalSymbol search.isXidContinue name)).isEmpty) :
    search.queryBase none stores (parseSymbolQuery search.isXidContinue name)
        (normalizeSymbol search.isXidContinue (parseSymbolQuery search.isXidContinue name).name) =
      .ok (leadingTier Prod.fst (search.baseHits stores name)) := by
  unfold queryBase baseHits
  cases stores.base with
  | none => rfl
  | some base => exact queryWorkspaceDb_none base.1 base.2 hname

/-- The best tier of all that two stores have. -/
theorem keepBestTier_leadingTier {α : Type} {tier : α → Nat} {owner : Option Str}
    {left right : List α} (hleft : TierSorted tier owner left)
    (hright : TierSorted tier owner right) :
    keepBestTier tier owner (leadingTier tier left ++ leadingTier tier right) =
      left.filter (fun hit => InBestTier tier owner (left ++ right) hit) ++
        right.filter fun hit => InBestTier tier owner (left ++ right) hit := by
  have hbest := keepBestTier_take (n := left.length + right.length + 1) (Nat.succ_pos _) hleft hright
  -- No list is longer than that limit.
  have hleftLength := length_leadingTier tier left
  have hrightLength := length_leadingTier tier right
  have hleftBest := List.length_filter_le
    (fun hit => decide (InBestTier tier owner (left ++ right) hit)) left
  have hrightBest := List.length_filter_le
    (fun hit => decide (InBestTier tier owner (left ++ right) hit)) right
  rw [List.take_of_length_le (by omega), List.take_of_length_le (by omega),
    List.take_of_length_le (by omega), List.take_of_length_le (by omega)] at hbest
  exact hbest

/-- A search without a limit sorts all hits of the best tier. -/
theorem searchSymbolsInIndex_unlimited (stores : Stores zstd) {name : Str}
    (hname : ¬ (normalizeSymbol search.isXidContinue
      (canonicalSymbol search.isXidContinue name)).isEmpty) :
    search.searchSymbolsInIndex none stores name =
      .ok (dedupAdjacent hitPlace none
        ((search.bestHits stores name (search.primaryHits stores name) ++
          search.bestHits stores name (search.baseHits stores name)).insertionSort
            HitNotAfter)) := by
  have hbest := keepBestTier_leadingTier
    (visibleHits_tierSorted search stores.primary name fun _ => false)
    (baseHits_tierSorted stores name)
  unfold searchSymbolsInIndex
  rw [if_neg hname]
  simp only [queryWorkspaceDb_none _ _ hname, queryBase_none stores hname, bind, Except.bind, truncate]
  rw [hbest, List.map_append]
  rfl

/-- The hits of the best tier that a search without a limit returns, up to their places. -/
theorem searchSymbolsInIndex_places (stores : Stores zstd) {name : Str}
    (hname : ¬ (normalizeSymbol search.isXidContinue
      (canonicalSymbol search.isXidContinue name)).isEmpty) :
    ∃ hits, search.searchSymbolsInIndex none stores name = .ok hits ∧
      (∀ hit ∈ hits, ∃ tier, (tier, hit) ∈ search.primaryHits stores name ++
          search.baseHits stores name ∧
        InBestTier Prod.fst (parseSymbolQuery search.isXidContinue name).owner
          (search.primaryHits stores name ++ search.baseHits stores name) (tier, hit)) ∧
      ∀ tiered ∈ search.primaryHits stores name ++ search.baseHits stores name,
        InBestTier Prod.fst (parseSymbolQuery search.isXidContinue name).owner
          (search.primaryHits stores name ++ search.baseHits stores name) tiered →
        ∃ hit ∈ hits, hitPlace hit = hitPlace tiered.2 := by
  refine ⟨_, searchSymbolsInIndex_unlimited stores hname, ?_, ?_⟩
  · intro hit hhit
    have hsorted := (dedupAdjacent_sublist none _).subset hhit
    rw [List.mem_insertionSort, List.mem_append] at hsorted
    simp only [bestHits, List.mem_map, List.mem_filter, decide_eq_true_eq] at hsorted
    rcases hsorted with ⟨tiered, ⟨hmem, hbest⟩, rfl⟩ | ⟨tiered, ⟨hmem, hbest⟩, rfl⟩
    · exact ⟨tiered.1, List.mem_append_left _ hmem, hbest⟩
    · exact ⟨tiered.1, List.mem_append_right _ hmem, hbest⟩
  · intro tiered hmem hbest
    have hnone : none ≠ some (hitPlace tiered.2) := Option.some_ne_none _ |>.symm
    refine exists_mem_dedupAdjacent ?_ hnone
    rw [List.mem_insertionSort, List.mem_append]
    simp only [bestHits, List.mem_map, List.mem_filter, decide_eq_true_eq]
    rcases List.mem_append.mp hmem with hmem | hmem
    · exact .inl ⟨tiered, ⟨hmem, hbest⟩, rfl⟩
    · exact .inr ⟨tiered, ⟨hmem, hbest⟩, rfl⟩

end SymbolSearch

/-! ## Rows of definitions -/

section

variable {zstd : Zstd} {isXidContinue : Char → Bool}

/-- A definition is passed by if its name is another, and it keeps the owner that it has. -/
theorem find?_attachOwner (p : Str → Bool) (leaf owner : Str) {definitions : List ChunkDefinition}
    {first : ChunkDefinition} (h : definitions.find? (fun d => p d.name) = some first) :
    ∃ attached, (attachOwner leaf owner definitions).find? (fun d => p d.name) = some attached ∧
      (first.owner ≠ none → attached.owner = first.owner) := by
  induction definitions with
  | nil => simp at h
  | cons definition rest ih =>
    unfold attachOwner
    rw [List.find?_cons] at h
    split
    · next hattached =>
      rw [List.find?_cons]
      cases hname : p definition.name with
      | true =>
        rw [hname, Option.some.injEq] at h
        exact ⟨_, rfl, fun howned => absurd (h ▸ hattached.1) howned⟩
      | false =>
        rw [hname] at h
        exact ⟨first, h, fun _ => rfl⟩
    · rw [List.find?_cons]
      cases hname : p definition.name with
      | true =>
        rw [hname, Option.some.injEq] at h
        exact ⟨definition, rfl, fun _ => by rw [h]⟩
      | false =>
        rw [hname] at h
        exact ih h

theorem find?_attachQualifiedOwners (p : Str → Bool) {definitions : List ChunkDefinition}
    {first : ChunkDefinition} (h : definitions.find? (fun d => p d.name) = some first) :
    ∃ attached, (attachQualifiedOwners definitions).find? (fun d => p d.name) = some attached ∧
      (first.owner ≠ none → attached.owner = first.owner) := by
  unfold attachQualifiedOwners
  generalize definitions.filterMap qualifiedLeaf = leaves
  induction leaves generalizing definitions first with
  | nil => exact ⟨first, h, fun _ => rfl⟩
  | cons leaf leaves ih =>
    obtain ⟨second, hsecond, hkept⟩ := find?_attachOwner p leaf.1 leaf.2 h
    obtain ⟨third, hthird, hkept'⟩ := ih hsecond
    refine ⟨third, hthird, fun howned => ?_⟩
    rw [← hkept howned]
    exact hkept' (by rw [hkept howned]; exact howned)

/-- The row of a name that the parser found. -/
theorem exists_definitionRow {chunk : ParsedChunk zstd} {name : Str} {first : ChunkDefinition}
    (h : chunk.definitions.find? (fun d =>
      normalizeSymbol isXidContinue d.name = normalizeSymbol isXidContinue name) = some first) :
    ∃ row ∈ chunk.definitionRows isXidContinue,
      row.normalizedName = normalizeSymbol isXidContinue name ∧ row.chunkKey = chunk.row.chunkKey ∧
      (first.owner ≠ none → row.owner = first.owner) := by
  have hall : (chunk.definitions ++
      (publicReexportNames isXidContinue chunk.row.language chunk.row.filePath chunk.text).map
        fun name => ChunkDefinition.mk name none).find? (fun d => normalizeSymbol isXidContinue d.name =
          normalizeSymbol isXidContinue name) = some first := by
    rw [List.find?_append, h, Option.some_or]
  obtain ⟨attached, hattached, hkept⟩ := find?_attachQualifiedOwners (fun other =>
    normalizeSymbol isXidContinue other = normalizeSymbol isXidContinue name) hall
  have hname : normalizeSymbol isXidContinue attached.name = normalizeSymbol isXidContinue name := by
    simpa using List.find?_some hattached
  have hfirst : attached ∈ chunk.chunkDefinitions isXidContinue := by
    rw [ParsedChunk.chunkDefinitions, mem_keepFirst, hname]
    exact hattached
  exact ⟨_, List.mem_map_of_mem hfirst, hname, rfl, hkept⟩

/-- A row is of a definition of its chunk. -/
theorem exists_definition_of_row {chunk : ParsedChunk zstd} {row : SymbolRow}
    (h : row ∈ chunk.definitionRows isXidContinue) :
    row.chunkKey = chunk.row.chunkKey ∧ ∃ definition ∈ chunk.allDefinitions isXidContinue,
      normalizeSymbol isXidContinue definition.name = row.normalizedName ∧
      definition.owner = row.owner := by
  obtain ⟨definition, hmem, rfl⟩ := List.mem_map.mp h
  exact ⟨rfl, definition, (keepFirst_sublist _ _).subset hmem, rfl, rfl⟩

/-- The join has every chunk with a row of the name. -/
theorem mem_join_storedTables {chunks : List (ParsedChunk zstd)} {chunk : ParsedChunk zstd}
    (hchunk : chunk ∈ chunks) {row : SymbolRow} (hrow : row ∈ chunk.definitionRows isXidContinue)
    (hkey : row.chunkKey = chunk.row.chunkKey) :
    ⟨chunk.row, row.name.getD row.normalizedName, row.owner⟩ ∈
      (storedTables isXidContinue chunks).join row.normalizedName := by
  unfold Tables.join
  rw [List.mem_flatMap]
  refine ⟨row, ?_, ?_⟩
  · rw [List.mem_filter]
    exact ⟨List.mem_flatMap.mpr ⟨chunk, hchunk, hrow⟩, by simp⟩
  · apply List.mem_map_of_mem
    rw [List.mem_filter]
    exact ⟨List.mem_map_of_mem hchunk, by simp [hkey]⟩

/-- A joined row is of a chunk that defines its name under its owner. -/
theorem exists_of_mem_join {chunks : List (ParsedChunk zstd)}
    (hkeys : (chunks.map fun chunk => chunk.row.chunkKey).Nodup) {normalized : Str}
    {joined : DefinitionRow zstd}
    (h : joined ∈ (storedTables isXidContinue chunks).join normalized) :
    ∃ chunk ∈ chunks, joined.chunk = chunk.row ∧
      ∃ definition ∈ chunk.allDefinitions isXidContinue,
        normalizeSymbol isXidContinue definition.name = normalized ∧
        definition.owner = joined.owner := by
  unfold Tables.join storedTables at h
  simp only [List.mem_flatMap, List.mem_filter, List.mem_map, decide_eq_true_eq] at h
  obtain ⟨row, ⟨⟨writer, hwriter, hrow⟩, hname⟩, _, ⟨⟨chunk, hchunk, rfl⟩, hkey⟩, rfl⟩ := h
  obtain ⟨hwriterKey, definition, hdefinition, hnormalized, howner⟩ := exists_definition_of_row hrow
  obtain rfl : chunk = writer :=
    List.inj_on_of_nodup_map hkeys hchunk hwriter (hkey.trans hwriterKey)
  exact ⟨chunk, hchunk, rfl, definition, hdefinition, hnormalized.trans hname, howner⟩

end

/-! ## Definitions of stored chunks -/

/-- The chunks of the stores. A store has one chunk for a key. -/
structure StoredChunks (zstd : Zstd) where
  primary : List (ParsedChunk zstd)
  base : Option (List (ParsedChunk zstd) × (Str → Bool))
  primary_keys : (primary.map fun chunk => chunk.row.chunkKey).Nodup
  base_keys : ∀ stored ∈ base, (stored.1.map fun chunk => chunk.row.chunkKey).Nodup

namespace StoredChunks

variable {zstd : Zstd} (chunks : StoredChunks zstd) (search : SymbolSearch)

def stores : Stores zstd where
  primary := storedTables search.isXidContinue chunks.primary
  base := chunks.base.map fun stored => (storedTables search.isXidContinue stored.1, stored.2)

/-- A chunk that the search does not skip. -/
def Visible (chunk : ParsedChunk zstd) : Prop :=
  (chunk ∈ chunks.primary ∧ search.skips (fun _ => false) chunk.row = false) ∨
    ∃ stored ∈ chunks.base, chunk ∈ stored.1 ∧ search.skips stored.2 chunk.row = false

variable {search} {name : Str}

theorem mem_visibleHits {tables : Tables zstd} {shadowed : Str → Bool}
    {tiered : Nat × SearchHit Str} (hname : ¬ (normalizeSymbol search.isXidContinue
      (canonicalSymbol search.isXidContinue name)).isEmpty) :
    tiered ∈ search.visibleHits tables name shadowed ↔
      ∃ row ∈ tables.join (normalizeSymbol search.isXidContinue
          (parseSymbolQuery search.isXidContinue name).name),
        search.skips shadowed row.chunk = false ∧
        SymbolSearch.tieredHit (parseSymbolQuery search.isXidContinue name) row = tiered := by
  unfold SymbolSearch.visibleHits Tables.rows
  rw [if_neg hname]
  simp only [List.mem_map, List.mem_filter, List.mem_insertionSort, Bool.not_eq_true', and_assoc]
  rfl

/-- A visible chunk with a row of the name has a hit. -/
theorem exists_mem_hits {chunk : ParsedChunk zstd} (hvisible : chunks.Visible search chunk)
    (hname : ¬ (normalizeSymbol search.isXidContinue
      (canonicalSymbol search.isXidContinue name)).isEmpty)
    {row : SymbolRow} (hrow : row ∈ chunk.definitionRows search.isXidContinue)
    (hnormalized : row.normalizedName = normalizeSymbol search.isXidContinue
      (parseSymbolQuery search.isXidContinue name).name) :
    ∃ tiered ∈ search.primaryHits (chunks.stores search) name ++
        search.baseHits (chunks.stores search) name,
      tiered.1 = ownerTier (parseSymbolQuery search.isXidContinue name).owner row.owner ∧
      SymbolSearch.hitPlace tiered.2 =
        (pathComponents chunk.row.filePath, chunk.row.startLine) := by
  have hkey := (exists_definition_of_row hrow).1
  let joined : DefinitionRow zstd := ⟨chunk.row, row.name.getD row.normalizedName, row.owner⟩
  refine ⟨SymbolSearch.tieredHit (parseSymbolQuery search.isXidContinue name) joined, ?_, rfl, rfl⟩
  rw [List.mem_append]
  rcases hvisible with ⟨hmem, hskips⟩ | ⟨stored, hstored, hmem, hskips⟩
  · have hjoined := mem_join_storedTables hmem hrow hkey
    rw [hnormalized] at hjoined
    exact .inl ((mem_visibleHits hname).mpr ⟨_, hjoined, hskips, by rw [← hnormalized]⟩)
  · have hjoined := mem_join_storedTables hmem hrow hkey
    rw [hnormalized] at hjoined
    right
    unfold SymbolSearch.baseHits stores
    rw [Option.mem_def] at hstored
    rw [hstored]
    exact (mem_visibleHits hname).mpr ⟨_, hjoined, hskips, by rw [← hnormalized]⟩

/-- A hit is of a visible chunk that defines the name under the owner of the row. -/
theorem exists_of_mem_hits {tiered : Nat × SearchHit Str}
    (hname : ¬ (normalizeSymbol search.isXidContinue
      (canonicalSymbol search.isXidContinue name)).isEmpty)
    (h : tiered ∈ search.primaryHits (chunks.stores search) name ++
      search.baseHits (chunks.stores search) name) :
    ∃ chunk, chunks.Visible search chunk ∧ tiered.2.filePath = chunk.row.filePath ∧
      tiered.2.startLine = chunk.row.startLine ∧
      ∃ definition ∈ chunk.allDefinitions search.isXidContinue,
        normalizeSymbol search.isXidContinue definition.name = normalizeSymbol search.isXidContinue
          (parseSymbolQuery search.isXidContinue name).name ∧
        tiered.1 = ownerTier (parseSymbolQuery search.isXidContinue name).owner
          definition.owner := by
  rcases List.mem_append.mp h with h | h
  · obtain ⟨row, hrow, hskips, rfl⟩ := (mem_visibleHits hname).mp h
    obtain ⟨chunk, hchunk, heq, definition, hdefinition, hnormalized, howner⟩ :=
      exists_of_mem_join chunks.primary_keys hrow
    rw [heq] at hskips
    exact ⟨chunk, .inl ⟨hchunk, hskips⟩, congrArg ChunkRow.filePath heq,
      congrArg ChunkRow.startLine heq, definition, hdefinition, hnormalized, by rw [howner]; rfl⟩
  · cases hbase : chunks.base with
    | none => simp [SymbolSearch.baseHits, stores, hbase] at h
    | some stored =>
      simp only [SymbolSearch.baseHits, stores, hbase, Option.map_some] at h
      obtain ⟨row, hrow, hskips, rfl⟩ := (mem_visibleHits hname).mp h
      obtain ⟨chunk, hchunk, heq, definition, hdefinition, hnormalized, howner⟩ :=
        exists_of_mem_join (chunks.base_keys stored hbase) hrow
      rw [heq] at hskips
      exact ⟨chunk, .inr ⟨stored, hbase, hchunk, hskips⟩, congrArg ChunkRow.filePath heq,
        congrArg ChunkRow.startLine heq, definition, hdefinition, hnormalized, by rw [howner]; rfl⟩

end StoredChunks

/-- The definition comes before those of its name that have another owner. -/
def ParsedChunk.Retains {zstd : Zstd} (isXidContinue : Char → Bool) (chunk : ParsedChunk zstd)
    (definition : ChunkDefinition) : Prop :=
  ∃ before after, chunk.definitions = before ++ definition :: after ∧
    ∀ earlier ∈ before,
      normalizeSymbol isXidContinue earlier.name = normalizeSymbol isXidContinue definition.name →
        earlier.owner = definition.owner

theorem ParsedChunk.Retains.find? {zstd : Zstd} {isXidContinue : Char → Bool}
    {chunk : ParsedChunk zstd} {definition : ChunkDefinition}
    (h : chunk.Retains isXidContinue definition) :
    ∃ first, chunk.definitions.find? (fun d => normalizeSymbol isXidContinue d.name =
        normalizeSymbol isXidContinue definition.name) = some first ∧
      first.owner = definition.owner := by
  obtain ⟨before, after, heq, hearlier⟩ := h
  rw [heq, List.find?_append]
  cases hfind : before.find? fun d => normalizeSymbol isXidContinue d.name =
      normalizeSymbol isXidContinue definition.name with
  | none => exact ⟨definition, by simp, rfl⟩
  | some first =>
    exact ⟨first, rfl, hearlier first (List.mem_of_find?_eq_some hfind)
      (by simpa using List.find?_some hfind)⟩

theorem ownerTier_eq_exact {owner : Str} {stored : Option Str}
    (h : ownerTier (some owner) stored = ownerTierExact) : stored = some owner := by
  cases stored with
  | none => simp [ownerTier, ownerTierExact, ownerTierNone] at h
  | some stored =>
    by_contra hne
    have hdiffer : owner ≠ stored := fun heq => hne (by rw [heq])
    simp only [ownerTier, if_neg hdiffer, ownerTierExact, ownerTierFolded, ownerTierNone] at h
    split at h <;> omega

/-- The place of a chunk, as that of a hit. -/
def ParsedChunk.place {zstd : Zstd} (chunk : ParsedChunk zstd) : List PathComponent × Nat :=
  (pathComponents chunk.row.filePath, chunk.row.startLine)

/-- A definition without an owner is found by its name. One that its chunk retains is found by its
    owner and its name, and then every hit is of a chunk that has the name under that owner. -/
theorem definition_reachable {zstd : Zstd} {search : SymbolSearch}
    (hxid : XidDocumented search.isXidContinue) (chunks : StoredChunks zstd)
    {chunk : ParsedChunk zstd} (hvisible : chunks.Visible search chunk)
    {definition : ChunkDefinition} (hmem : definition ∈ chunk.definitions)
    (hname : IsName search.isXidContinue definition.name) :
    (definition.owner = none →
      ∃ hits, search.searchSymbolsInIndex none (chunks.stores search) definition.name = .ok hits ∧
        ∃ hit ∈ hits, SymbolSearch.hitPlace hit = chunk.place) ∧
    ∀ owner, definition.owner = some owner → IsOwner search.isXidContinue owner →
      chunk.Retains search.isXidContinue definition → ∀ qualifier ∈ qualifiers,
      ∃ hits, search.searchSymbolsInIndex none (chunks.stores search)
          (owner ++ qualifier ++ definition.name) = .ok hits ∧
        (∃ hit ∈ hits, SymbolSearch.hitPlace hit = chunk.place) ∧
        ∀ hit ∈ hits, ∃ other, chunks.Visible search other ∧
          hit.filePath = other.row.filePath ∧ hit.startLine = other.row.startLine ∧
          ∃ same ∈ other.allDefinitions search.isXidContinue,
            normalizeSymbol search.isXidContinue same.name =
              normalizeSymbol search.isXidContinue definition.name ∧ same.owner = some owner := by
  obtain ⟨-, -, hself⟩ := hname.core hxid
  have hnormalized : normalizeSymbol search.isXidContinue
      (canonicalSymbol search.isXidContinue definition.name) =
        normalizeSymbol search.isXidContinue definition.name := by
    rw [normalizeSymbol, hself, normalizeSymbol]
  constructor
  · intro _
    have hne := normalizeSymbol_plain_ne hxid hname
    have hquery := parseSymbolQuery_plain hxid hname
    obtain ⟨hits, hhits, -, hplaces⟩ :=
      SymbolSearch.searchSymbolsInIndex_places (chunks.stores search) hne
    obtain ⟨first, hfirst⟩ : ∃ first, chunk.definitions.find? (fun d =>
        normalizeSymbol search.isXidContinue d.name =
          normalizeSymbol search.isXidContinue definition.name) = some first := by
      rw [← Option.isSome_iff_exists, List.find?_isSome]
      exact ⟨definition, hmem, by simp⟩
    obtain ⟨row, hrow, hrowName, -, -⟩ := exists_definitionRow hfirst
    obtain ⟨tiered, htiered, -, hplace⟩ := chunks.exists_mem_hits hvisible hne hrow
      (by rw [hrowName, hquery, hnormalized])
    obtain ⟨hit, hhit, hsame⟩ := hplaces tiered htiered (.inl (by rw [hquery]))
    exact ⟨hits, hhits, hit, hhit, hsame.trans hplace⟩
  · intro owner howner hisOwner hretains qualifier hqualifier
    have hne := normalizeSymbol_qualified_ne hxid hisOwner hname hqualifier
    have hquery := parseSymbolQuery_qualified hxid hisOwner hname hqualifier
    obtain ⟨hits, hhits, hfrom, hplaces⟩ :=
      SymbolSearch.searchSymbolsInIndex_places (chunks.stores search) hne
    rw [hquery] at hfrom hplaces
    obtain ⟨first, hfirst, hfirstOwner⟩ := hretains.find?
    obtain ⟨row, hrow, hrowName, -, hrowOwner⟩ := exists_definitionRow hfirst
    obtain ⟨tiered, htiered, htier, hplace⟩ := chunks.exists_mem_hits hvisible hne hrow
      (by rw [hrowName, hquery, hnormalized])
    have hexact : tiered.1 = ownerTierExact := by
      rw [htier, hquery, hrowOwner (by simp [hfirstOwner, howner]), hfirstOwner, howner]
      simp [ownerTier]
    refine ⟨hits, hhits, ?_, ?_⟩
    · obtain ⟨hit, hhit, hsame⟩ := hplaces tiered htiered
        (.inr (.inr fun other _ => by rw [hexact]; exact Nat.zero_le _))
      exact ⟨hit, hhit, hsame.trans hplace⟩
    · intro hit hhit
      obtain ⟨tier, hfound, hbest⟩ := hfrom hit hhit
      obtain ⟨other, hother, hpath, hline, same, hsame, hsameName, hsameTier⟩ :=
        chunks.exists_of_mem_hits hne hfound
      rw [hquery] at hsameName hsameTier
      have hzero : tier = ownerTierExact := by
        rcases hbest with hnone | hweak | hleast
        · cases hnone
        · have hle := hweak tiered htiered
          rw [hexact] at hle
          exact absurd hle (by decide)
        · have hle := hleast tiered htiered
          rw [hexact] at hle
          exact Nat.le_zero.mp hle
      exact ⟨other, hother, hpath, hline, same, hsame, hsameName.trans hnormalized,
        ownerTier_eq_exact (hsameTier.symm.trans hzero)⟩

/-! ## A name under two owners -/

theorem sampleSearch_documented : XidDocumented SymbolSearch.sampleSearch.isXidContinue where
  separator := by
    intro c hc
    simp only [separators, List.mem_cons, List.not_mem_nil, or_false] at hc
    rcases hc with rfl | rfl | rfl | rfl | rfl <;> rfl
  blanks := by
    intro c hblank
    by_contra hxid
    rw [Bool.not_eq_false] at hxid
    have hword : c.isAlphanum = true ∨ c = '_' := by
      simpa [SymbolSearch.sampleSearch] using hxid
    have hascii : c.toNat ≤ 0x7f := by
      rcases hword with hword | rfl
      · exact Str.ascii_of_isAlphanum hword
      · decide
    exact Str.forall_ascii (p := fun c => isWhitespace c = true →
      ¬ SymbolSearch.sampleSearch.isXidContinue c = true) (by decide +kernel) hascii hblank hxid

/-- A chunk whose definitions are all of the name `f`. -/
def sampleParsed (chunkKey : Int) (filePath : Str) (owners : List Str) :
    ParsedChunk SymbolSearch.unusedZstd where
  row := SymbolSearch.sampleChunk chunkKey filePath 1
  text := "fn f() {}".toList
  definitions := owners.map fun owner => ⟨['f'], some owner⟩

/-- `a.rs` has `A::f` and `B::f` in one chunk, and `b.rs` has `B::f`. -/
def sampleChunks : StoredChunks SymbolSearch.unusedZstd where
  primary := [sampleParsed 1 "a.rs".toList [['A'], ['B']], sampleParsed 2 "b.rs".toList [['B']]]
  base := none
  primary_keys := by decide
  base_keys := nofun

/-- The chunk has its row of `f` under `A`, and the search for `B.f` does not find it. -/
theorem second_owner_lost :
    (SymbolSearch.sampleSearch.searchSymbolsInIndex none
        (sampleChunks.stores SymbolSearch.sampleSearch) "B.f".toList).toOption.map
        (List.map fun hit => (hit.filePath, hit.startLine)) = some [("b.rs".toList, 1)] ∧
      ∀ chunk ∈ sampleChunks.primary, ⟨['f'], some ['B']⟩ ∈ chunk.definitions ∧
        SymbolSearch.sampleSearch.skips (fun _ => false) chunk.row = false := by
  constructor
  · decide +kernel
  · decide

theorem definition_reachable_first :
    let chunk := sampleParsed 1 "a.rs".toList [['A'], ['B']]
    ∃ hits, SymbolSearch.sampleSearch.searchSymbolsInIndex none
        (sampleChunks.stores SymbolSearch.sampleSearch) (['A'] ++ ['.'] ++ ['f']) = .ok hits ∧
      ∃ hit ∈ hits, SymbolSearch.hitPlace hit = chunk.place := by
  have hvisible : sampleChunks.Visible SymbolSearch.sampleSearch
      (sampleParsed 1 "a.rs".toList [['A'], ['B']]) := .inl ⟨List.mem_cons_self, by decide +kernel⟩
  have hmem : (⟨['f'], some ['A']⟩ : ChunkDefinition) ∈
      (sampleParsed 1 "a.rs".toList [['A'], ['B']]).definitions := List.mem_cons_self
  have hreach := definition_reachable sampleSearch_documented sampleChunks hvisible hmem
    ⟨List.forall_mem_singleton.mpr rfl, 'f', by decide, by decide⟩
  obtain ⟨hits, hhits, hplace, -⟩ := hreach.2 ['A'] rfl
    ⟨List.forall_mem_singleton.mpr rfl, 'A', rfl, by decide⟩
    ⟨[], [⟨['f'], some ['B']⟩], rfl, by simp⟩ ['.'] (by simp [qualifiers])
  exact ⟨hits, hhits, hplace⟩

end Ivygrep.Native.Symbols
