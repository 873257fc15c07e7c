import Mathlib.Data.List.DropRight
import Mathlib.Data.List.Forall2
import Ivygrep.Native.PathGlob

/-!
# Splitting undoes joining

The patterns that `globset` accepts are given by their tokens. `parse_glob_csv` takes a joined list
apart at the right commas where it reads each character class as `globset` does.
-/

namespace Ivygrep.Native

/-! ## The grammar of `globset` -/

/-- A part of a pattern. Members of a class are the characters up to the bracket that ends it. -/
inductive GlobToken where
  | char (c : Char)
  | escaped (c : Char)
  | comma
  | characterClass (negation members : Str)
  | openBrace
  | closeBrace

namespace GlobToken

def text : GlobToken → Str
  | char c => [c]
  | escaped c => ['\\', c]
  | comma => [',']
  | characterClass negation members => '[' :: (negation ++ members ++ [']'])
  | openBrace => ['{']
  | closeBrace => ['}']

/-- The depth of braces behind the token. -/
def depthAfter (depth : Nat) : GlobToken → Nat
  | openBrace => depth + 1
  | closeBrace => depth - 1
  | _ => depth

/-- What the grammar asks of a token: in a class, a closing bracket is the first member or ends it,
    and a backslash is a member. -/
def Ok (depth : Nat) : GlobToken → Prop
  | char c => c ∉ ['\\', '[', '{', '}', ',']
  | characterClass negation members =>
    negation ∈ [[], ['!'], ['^']] ∧ members ≠ [] ∧ ']' ∉ members.tail ∧
      (negation = [] → members.head? ≠ some '!' ∧ members.head? ≠ some '^')
  | closeBrace => 0 < depth
  | _ => True

/-- The comma that an escaped comma stands for: plain, or the member of a class among
    alternatives. -/
def plainComma (depth : Nat) : GlobToken :=
  if 0 < depth then characterClass [] [','] else comma

/-- The token that `parse_glob_csv` leaves. -/
def normal (depth : Nat) : GlobToken → GlobToken
  | escaped c => if c = ',' then plainComma depth else escaped c
  | token => token

end GlobToken

/-- The text of a pattern. -/
def globText (tokens : List GlobToken) : Str := tokens.flatMap GlobToken.text

def globDepth (depth : Nat) (tokens : List GlobToken) : Nat :=
  tokens.foldl GlobToken.depthAfter depth

/-- The two stars that match directories are illegal behind an escaped character. -/
def startsWithStars (tokens : List GlobToken) : Prop :=
  [GlobToken.char '*', GlobToken.char '*'] <+: tokens

/-- The tokens of a valid pattern: all braces are closed. -/
def IsGlob : Nat → List GlobToken → Prop
  | depth, [] => depth = 0
  | depth, token :: tokens =>
    token.Ok depth ∧ (∀ c, token = .escaped c → ¬ startsWithStars tokens) ∧
      IsGlob (token.depthAfter depth) tokens

/-- Outside classes, a comma that is not escaped is between alternatives. -/
def CommasInBraces : Nat → List GlobToken → Prop
  | _, [] => True
  | depth, token :: tokens =>
    (token = .comma → 0 < depth) ∧ CommasInBraces (token.depthAfter depth) tokens

def normalTokens : Nat → List GlobToken → List GlobToken
  | _, [] => []
  | depth, token :: tokens => token.normal depth :: normalTokens (token.depthAfter depth) tokens

/-- `globset`, as far as its documentation tells of commas: an escaped comma matches what a comma
    outside braces does, and what the class of a comma does. -/
structure Globset (Path : Type) where
  isMatch : Str → Path → Bool
  escaped_comma : ∀ before after : List GlobToken, IsGlob 0 (before ++ .escaped ',' :: after) →
    isMatch (globText (before ++ .escaped ',' :: after)) =
      isMatch (globText (before ++ .plainComma (globDepth 0 before) :: after))

theorem GlobToken.normal_of_ne (depth : Nat) {token : GlobToken} (h : token ≠ .escaped ',') :
    token.normal depth = token := by
  cases token with
  | escaped c => exact if_neg fun hc => h (congrArg _ hc)
  | _ => rfl

theorem GlobToken.plainComma_ok (depth : Nat) : (plainComma depth).Ok depth := by
  unfold plainComma
  split
  · exact ⟨by decide, by decide, by decide, fun _ => by decide⟩
  · trivial

theorem GlobToken.plainComma_depthAfter (depth inner : Nat) :
    (plainComma inner).depthAfter depth = depth := by
  unfold plainComma
  split <;> rfl

theorem GlobToken.plainComma_ne (depth : Nat) (c : Char) :
    plainComma depth ≠ .escaped c ∧ plainComma depth ≠ .char c := by
  unfold plainComma
  split <;> exact ⟨by rintro ⟨⟩, by rintro ⟨⟩⟩

/-- Stars at the beginning are not touched by a change of another token. -/
theorem startsWithStars_replace {before after : List GlobToken} {token other : GlobToken}
    (hother : other ≠ .char '*') (h : startsWithStars (before ++ other :: after)) :
    startsWithStars (before ++ token :: after) := by
  unfold startsWithStars at h ⊢
  cases before with
  | nil => exact absurd (List.cons_prefix_cons.mp h).1.symm hother
  | cons first before =>
    obtain ⟨hfirst, h⟩ := List.cons_prefix_cons.mp h
    cases before with
    | nil => exact absurd (List.cons_prefix_cons.mp h).1.symm hother
    | cons second before =>
      obtain ⟨hsecond, -⟩ := List.cons_prefix_cons.mp h
      rw [← hfirst, ← hsecond]
      exact ⟨before ++ token :: after, rfl⟩

theorem isGlob_replace {before after : List GlobToken} {depth : Nat}
    (h : IsGlob depth (before ++ .escaped ',' :: after)) :
    IsGlob depth (before ++ .plainComma (globDepth depth before) :: after) := by
  induction before generalizing depth with
  | nil =>
    refine ⟨GlobToken.plainComma_ok _, ?_, ?_⟩
    · exact fun c hc => absurd hc (GlobToken.plainComma_ne _ c).1
    · rw [GlobToken.plainComma_depthAfter]
      exact h.2.2
  | cons token before ih =>
    refine ⟨h.1, fun c hc hstars => ?_, ih h.2.2⟩
    exact h.2.1 c hc (startsWithStars_replace (GlobToken.plainComma_ne _ '*').2 hstars)

theorem globDepth_concat (depth : Nat) (tokens : List GlobToken) (token : GlobToken) :
    globDepth depth (tokens ++ [token]) = token.depthAfter (globDepth depth tokens) := by
  rw [globDepth, List.foldl_append]
  rfl

/-- A pattern matches what it does with its escaped commas in the form that is left. -/
theorem Globset.isMatch_normalTokens {Path : Type} (glob : Globset Path)
    (before tokens : List GlobToken) (h : IsGlob 0 (before ++ tokens)) :
    glob.isMatch (globText (before ++ normalTokens (globDepth 0 before) tokens)) =
      glob.isMatch (globText (before ++ tokens)) := by
  -- what is before the tokens is in normal form already, so that it grows by one token a round
  induction tokens generalizing before with
  | nil => rfl
  | cons token tokens ih =>
    have hstep : ∀ other : GlobToken, token.normal (globDepth 0 before) = other →
        other.depthAfter (globDepth 0 before) = token.depthAfter (globDepth 0 before) →
        IsGlob 0 (before ++ other :: tokens) →
        glob.isMatch (globText (before ++ normalTokens (globDepth 0 before) (token :: tokens))) =
          glob.isMatch (globText (before ++ other :: tokens)) := by
      rintro other rfl hdepth hother
      rw [List.append_cons] at hother
      have hrest := ih _ hother
      rw [globDepth_concat, hdepth, ← List.append_cons, ← List.append_cons] at hrest
      exact hrest
    by_cases hcomma : token = .escaped ','
    · subst hcomma
      rw [hstep (.plainComma (globDepth 0 before)) rfl
        (GlobToken.plainComma_depthAfter _ _) (isGlob_replace h),
        glob.escaped_comma before tokens h]
    · exact hstep token (GlobToken.normal_of_ne _ hcomma) rfl h

/-! ## Reading a pattern -/

/-- The backslashes in a class are each followed by another member, which is no comma. -/
def backslashesPaired : Str → Bool
  | [] => true
  | [c] => c != '\\'
  | c :: d :: rest =>
    if c = '\\' then d != ',' && backslashesPaired rest else backslashesPaired (d :: rest)

/-- The class is split as it is matched: it does not begin with a closing bracket and its
    backslashes are paired, or else it has none of the characters that the splitter looks for. -/
def GlobToken.ReadAsOne : GlobToken → Prop
  | characterClass _ members =>
    (members.head? ≠ some ']' ∧ backslashesPaired members = true) ∨
      (members.head? = some ']' ∧ ∀ c ∈ members.tail, c ∉ [',', '[', '{', '}'])
  | _ => True

namespace GlobCsv

theorem visit_member (patterns : List Str) (pattern : Str) (depth : Nat) {c : Char}
    (hbackslash : c ≠ '\\') (hbracket : c ≠ ']') :
    visit ⟨patterns, pattern, depth, true, false⟩ c =
      ⟨patterns, pattern ++ [c], depth, true, false⟩ := by
  simp [visit, hbackslash, hbracket]

theorem visit_pair (patterns : List Str) (pattern : Str) (depth : Nat) {c : Char} (hc : c ≠ ',') :
    visit (visit ⟨patterns, pattern, depth, true, false⟩ '\\') c =
      ⟨patterns, pattern ++ ['\\', c], depth, true, false⟩ := by
  simp [visit, escapedText, hc]

theorem visit_members (patterns : List Str) (pattern : Str) (depth : Nat) {members : Str}
    (hmem : ']' ∉ members) (hpaired : backslashesPaired members = true) :
    members.foldl visit ⟨patterns, pattern, depth, true, false⟩ =
      ⟨patterns, pattern ++ members, depth, true, false⟩ := by
  fun_induction backslashesPaired members generalizing pattern with
  | case1 => rw [List.append_nil, List.foldl_nil]
  | case2 c =>
    exact visit_member patterns pattern depth (by simpa using hpaired)
      (fun hc => hmem (hc ▸ List.mem_singleton_self _))
  | case3 d rest ih =>
    rw [Bool.and_eq_true, bne_iff_ne] at hpaired
    have hrest : ']' ∉ rest := fun h => hmem (List.mem_cons_of_mem _ (List.mem_cons_of_mem _ h))
    rw [List.foldl_cons, List.foldl_cons, visit_pair _ _ _ hpaired.1, ih _ hrest hpaired.2,
      List.append_assoc]
    rfl
  | case4 c d rest hc ih =>
    have hbracket : c ≠ ']' := fun h => hmem (h ▸ List.mem_cons_self)
    rw [List.foldl_cons, visit_member _ _ _ hc hbracket,
      ih _ (fun h => hmem (List.mem_cons_of_mem _ h)) hpaired, List.append_assoc]
    rfl

theorem visit_outside (patterns : List Str) (pattern : Str) (depth : Nat) (escaped : Bool)
    {text : Str} (h : ∀ c ∈ text, c ∉ [',', '[', '{', '}']) :
    (text ++ [']']).foldl visit ⟨patterns, pattern, depth, false, escaped⟩ =
      ⟨patterns, pattern ++ (if escaped then ['\\'] else []) ++ text ++ [']'], depth, false,
        false⟩ := by
  induction text generalizing pattern escaped with
  | nil => cases escaped <;> simp [visit, escapedText]
  | cons c text ih =>
    have hc := h c List.mem_cons_self
    have hrest := fun c hc => h c (List.mem_cons_of_mem _ hc)
    simp only [List.mem_cons, List.not_mem_nil, or_false, not_or] at hc
    rw [List.cons_append, List.foldl_cons]
    cases escaped with
    | true => simp [visit, escapedText, hc, ih _ _ hrest]
    | false =>
      by_cases hbackslash : c = '\\'
      · simp [visit, hbackslash, ih _ _ hrest]
      · simp [visit, hbackslash, hc, ih _ _ hrest]

/-- The splitter reads a token as the grammar does. -/
theorem visit_token (patterns : List Str) (pattern : Str) {depth : Nat} {token : GlobToken}
    (hok : token.Ok depth) (hcomma : token = .comma → 0 < depth) (hread : token.ReadAsOne) :
    token.text.foldl visit ⟨patterns, pattern, depth, false, false⟩ =
      ⟨patterns, pattern ++ (token.normal depth).text, token.depthAfter depth, false, false⟩ := by
  cases token with
  | char c =>
    simp only [GlobToken.Ok, List.mem_cons, List.not_mem_nil, or_false, not_or] at hok
    simp [GlobToken.text, GlobToken.normal, GlobToken.depthAfter, visit, hok]
  | escaped c =>
    by_cases hc : c = ','
    · subst hc
      by_cases hdepth : 0 < depth
      · simp [GlobToken.text, GlobToken.normal, GlobToken.depthAfter, GlobToken.plainComma, visit,
          escapedText, hdepth]
      · simp [GlobToken.text, GlobToken.normal, GlobToken.depthAfter, GlobToken.plainComma, visit,
          escapedText, hdepth]
    · simp [GlobToken.text, GlobToken.normal, GlobToken.depthAfter, visit, escapedText, hc]
  | comma =>
    have hdepth := Nat.ne_of_gt (hcomma rfl)
    simp [GlobToken.text, GlobToken.normal, GlobToken.depthAfter, visit, hdepth]
  | openBrace => simp [GlobToken.text, GlobToken.normal, GlobToken.depthAfter, visit]
  | closeBrace => simp [GlobToken.text, GlobToken.normal, GlobToken.depthAfter, visit]
  | characterClass negation members =>
    obtain ⟨hnegation, hne, htail, -⟩ := hok
    have hopen : ('[' :: negation).foldl visit ⟨patterns, pattern, depth, false, false⟩ =
        ⟨patterns, pattern ++ '[' :: negation, depth, true, false⟩ := by
      simp only [List.mem_cons, List.not_mem_nil, or_false] at hnegation
      rcases hnegation with rfl | rfl | rfl <;> simp [visit]
    show (('[' :: negation) ++ members ++ [']']).foldl visit _ = _
    rw [List.append_assoc, List.foldl_append, hopen]
    rcases hread with ⟨hhead, hpaired⟩ | ⟨hhead, hrest⟩
    · -- no member is a closing bracket, so that the class ends where it should
      have hmem : ']' ∉ members := by
        cases members with
        | nil => exact List.not_mem_nil
        | cons c rest =>
          rw [List.mem_cons, not_or]
          exact ⟨fun hc => hhead (congrArg some hc.symm), htail⟩
      rw [List.foldl_append, visit_members _ _ _ hmem hpaired]
      simp [visit, GlobToken.text, GlobToken.normal, GlobToken.depthAfter]
    · -- the class ends at its first member, and the rest is read outside
      obtain ⟨c, rest, rfl⟩ := List.exists_cons_of_ne_nil hne
      obtain rfl : c = ']' := Option.some.inj hhead
      have hclose : visit ⟨patterns, pattern ++ '[' :: negation, depth, true, false⟩ ']' =
          ⟨patterns, pattern ++ '[' :: negation ++ [']'], depth, false, false⟩ := by
        simp [visit]
      rw [List.tail_cons] at hrest
      rw [List.cons_append, List.foldl_cons, hclose, visit_outside _ _ _ _ hrest]
      simp [GlobToken.text, GlobToken.normal, GlobToken.depthAfter]

/-- Reading a whole pattern leaves its normal form, and no brace open. -/
theorem visit_globText (patterns : List Str) (pattern : Str) {depth : Nat}
    {tokens : List GlobToken} (hglob : IsGlob depth tokens) (hcommas : CommasInBraces depth tokens)
    (hread : ∀ token ∈ tokens, token.ReadAsOne) :
    (globText tokens).foldl visit ⟨patterns, pattern, depth, false, false⟩ =
      ⟨patterns, pattern ++ globText (normalTokens depth tokens), 0, false, false⟩ := by
  induction tokens generalizing pattern depth with
  | nil =>
    obtain rfl : depth = 0 := hglob
    simp [globText, normalTokens]
  | cons token tokens ih =>
    rw [globText, List.flatMap_cons, List.foldl_append,
      visit_token _ _ hglob.1 hcommas.1 (hread token List.mem_cons_self)]
    have hrest := ih (pattern ++ (token.normal depth).text) hglob.2.2 hcommas.2
      fun other hother => hread other (List.mem_cons_of_mem _ hother)
    rw [globText] at hrest
    rw [hrest, normalTokens, globText, globText, List.flatMap_cons, List.append_assoc]

end GlobCsv

/-! ## Blanks around a pattern -/

/-- No blank at either end. -/
def NoBlankEnds (text : Str) : Prop :=
  (∀ c ∈ text.head?, isWhitespace c = false) ∧ ∀ c ∈ text.getLast?, isWhitespace c = false

theorem trim_eq_self_iff {text : Str} : Str.trim text = text ↔ NoBlankEnds text := by
  have hstart : Str.trimStart text = text ↔ ∀ c ∈ text.head?, isWhitespace c = false := by
    cases text with
    | nil => simp [Str.trimStart]
    | cons c rest => simp [Str.trimStart, List.dropWhile_eq_self_iff]
  have hend : text.rdropWhile isWhitespace = text ↔
      ∀ c ∈ text.getLast?, isWhitespace c = false := by
    rw [List.rdropWhile_eq_self_iff]
    constructor
    · intro h c hc
      obtain ⟨hne, rfl⟩ := List.mem_getLast?_eq_getLast hc
      simpa using h hne
    · intro h hne
      simpa using h _ (List.getLast?_eq_some_getLast hne)
  constructor
  · intro h
    -- each of the two trims can only take away, and together they took nothing
    have hlength : (Str.trimStart text).length = text.length := by
      refine Nat.le_antisymm (List.dropWhile_suffix _).length_le ?_
      rw [← congrArg List.length h]
      exact (List.rdropWhile_prefix _ _).length_le
    have htrim : Str.trimStart text = text := (List.dropWhile_suffix _).eq_of_length hlength
    rw [Str.trim, htrim] at h
    exact ⟨hstart.mp htrim, hend.mp h⟩
  · rintro ⟨hhead, hlast⟩
    rw [Str.trim, hstart.mpr hhead, hend.mpr hlast]

theorem GlobToken.text_ne_nil (token : GlobToken) : token.text ≠ [] := by
  cases token <;> exact List.cons_ne_nil _ _

/-- Where a token changes, it begins and ends with a comma or a bracket. -/
theorem GlobToken.noBlankEnds_normal (depth : Nat) {token : GlobToken} :
    ((∀ c ∈ token.text.head?, isWhitespace c = false) →
      ∀ c ∈ (token.normal depth).text.head?, isWhitespace c = false) ∧
    ((∀ c ∈ token.text.getLast?, isWhitespace c = false) →
      ∀ c ∈ (token.normal depth).text.getLast?, isWhitespace c = false) := by
  by_cases hcomma : token = .escaped ','
  · subst hcomma
    have hnormal : (GlobToken.escaped ',').normal depth = plainComma depth := rfl
    rw [hnormal, plainComma]
    split
    · refine ⟨fun _ => ?_, fun _ => ?_⟩ <;> rintro _ ⟨⟩ <;> rfl
    · refine ⟨fun _ => ?_, fun _ => ?_⟩ <;> rintro _ ⟨⟩ <;> rfl
  · rw [normal_of_ne depth hcomma]
    exact ⟨id, id⟩

theorem normalTokens_append (depth : Nat) (left right : List GlobToken) :
    normalTokens depth (left ++ right) =
      normalTokens depth left ++ normalTokens (globDepth depth left) right := by
  induction left generalizing depth with
  | nil => rfl
  | cons token left ih => exact congrArg _ (ih _)

theorem head?_globText (token : GlobToken) (tokens : List GlobToken) :
    (globText (token :: tokens)).head? = token.text.head? := by
  rw [globText, List.flatMap_cons, List.head?_append_of_ne_nil _ token.text_ne_nil]

theorem getLast?_globText (tokens : List GlobToken) (token : GlobToken) :
    (globText (tokens ++ [token])).getLast? = token.text.getLast? := by
  rw [globText, List.flatMap_append, List.flatMap_singleton,
    List.getLast?_append_of_ne_nil _ token.text_ne_nil]

theorem noBlankEnds_normalTokens (depth : Nat) {tokens : List GlobToken}
    (h : NoBlankEnds (globText tokens)) : NoBlankEnds (globText (normalTokens depth tokens)) := by
  constructor
  · cases tokens with
    | nil => exact h.1
    | cons token tokens =>
      rw [normalTokens, head?_globText]
      refine (GlobToken.noBlankEnds_normal depth).1 ?_
      rw [← head?_globText token tokens]
      exact h.1
  · -- the depth before the last token decides its form
    rcases List.eq_nil_or_concat tokens with rfl | ⟨front, token, rfl⟩
    · exact h.2
    · rw [List.concat_eq_append] at h ⊢
      rw [normalTokens_append, normalTokens, normalTokens, getLast?_globText]
      refine (GlobToken.noBlankEnds_normal _).2 ?_
      rw [← getLast?_globText front token]
      exact h.2

/-! ## The list -/

/-- A pattern that may be in a list: a valid glob without blanks around it, whose commas are escaped
    or in braces or classes. -/
structure IsFilter (tokens : List GlobToken) : Prop where
  glob : IsGlob 0 tokens
  commas : CommasInBraces 0 tokens
  ne_nil : tokens ≠ []
  trimmed : Str.trim (globText tokens) = globText tokens

theorem IsFilter.finished {tokens : List GlobToken} (h : IsFilter tokens) (patterns : List Str)
    (depth : Nat) (inCharacterClass escaped : Bool) :
    GlobCsv.finished
        ⟨patterns, globText (normalTokens 0 tokens), depth, inCharacterClass, escaped⟩ =
      patterns ++ [globText (normalTokens 0 tokens)] := by
  have htrim := trim_eq_self_iff.mpr (noBlankEnds_normalTokens 0 (trim_eq_self_iff.mp h.trimmed))
  have hne : globText (normalTokens 0 tokens) ≠ [] := by
    obtain ⟨token, rest, rfl⟩ := List.exists_cons_of_ne_nil h.ne_nil
    rw [normalTokens, globText, List.flatMap_cons]
    exact List.append_ne_nil_of_left_ne_nil (GlobToken.text_ne_nil _) _
  simp only [GlobCsv.finished, htrim, if_neg hne]

/-- The patterns of a joined list come out one by one, in the form that is left of each. -/
theorem visit_join {tokens : List GlobToken} {rest : List (List GlobToken)}
    (hfilters : ∀ pattern ∈ tokens :: rest, IsFilter pattern)
    (hread : ∀ pattern ∈ tokens :: rest, ∀ token ∈ pattern, token.ReadAsOne)
    (patterns : List Str) :
    ∃ csv, (List.intercalate [','] ((tokens :: rest).map globText)).foldl GlobCsv.visit
        ⟨patterns, [], 0, false, false⟩ = csv ∧ csv.escaped = false ∧
      csv.finished = patterns ++ (tokens :: rest).map fun pattern =>
        globText (normalTokens 0 pattern) := by
  have htokens := hfilters tokens List.mem_cons_self
  have hpattern := GlobCsv.visit_globText patterns [] htokens.glob htokens.commas
    (hread tokens List.mem_cons_self)
  rw [List.nil_append] at hpattern
  induction rest generalizing tokens patterns with
  | nil =>
    refine ⟨_, rfl, ?_⟩
    rw [List.map_singleton, List.intercalate_singleton, hpattern]
    exact ⟨rfl, htokens.finished patterns 0 false false⟩
  | cons next rest ih =>
    have hnext := hfilters next (List.mem_cons_of_mem _ List.mem_cons_self)
    have hcomma : GlobCsv.visit
        ⟨patterns, globText (normalTokens 0 tokens), 0, false, false⟩ ',' =
          ⟨patterns ++ [globText (normalTokens 0 tokens)], [], 0, false, false⟩ := by
      rw [← htokens.finished patterns 0 false false]
      rfl
    obtain ⟨csv, hcsv, hescaped, hfinished⟩ := ih
      (fun pattern hmem => hfilters pattern (List.mem_cons_of_mem _ hmem))
      (fun pattern hmem => hread pattern (List.mem_cons_of_mem _ hmem))
      (patterns ++ [globText (normalTokens 0 tokens)]) hnext
      (GlobCsv.visit_globText _ [] hnext.glob hnext.commas
        (hread next (List.mem_cons_of_mem _ List.mem_cons_self)))
    refine ⟨csv, ?_, hescaped, ?_⟩
    · rw [List.map_cons, List.map_cons, List.intercalate_cons_cons, List.foldl_append,
        List.foldl_append, hpattern, List.foldl_cons, List.foldl_nil, hcomma, ← List.map_cons]
      exact hcsv
    · rw [hfinished, List.append_assoc]
      rfl

/-- Splitting a joined list gives each pattern, in order and with the same matches, where each
    character class is read as one. -/
theorem parseGlobCsv_join {Path : Type} (glob : Globset Path) {patterns : List (List GlobToken)}
    (hfilters : ∀ tokens ∈ patterns, IsFilter tokens)
    (hread : ∀ tokens ∈ patterns, ∀ token ∈ tokens, token.ReadAsOne) :
    List.Forall₂ (fun parsed tokens => glob.isMatch parsed = glob.isMatch (globText tokens))
      (parseGlobCsv (some (List.intercalate [','] (patterns.map globText)))) patterns := by
  cases patterns with
  | nil => exact List.Forall₂.nil
  | cons tokens rest =>
    obtain ⟨csv, hcsv, hescaped, hfinished⟩ := visit_join hfilters hread []
    have hparsed : parseGlobCsv (some (List.intercalate [','] ((tokens :: rest).map globText))) =
        (tokens :: rest).map fun pattern => globText (normalTokens 0 pattern) := by
      simp only [parseGlobCsv, Option.getD_some, hcsv, hescaped, hfinished, List.nil_append]
      rfl
    rw [hparsed, List.forall₂_map_left_iff, List.forall₂_same]
    intro pattern hmem
    exact glob.isMatch_normalTokens [] pattern (hfilters pattern hmem).glob

/-- A pattern without wildcards, classes and alternatives: the path it names. -/
private def literalPath (pattern : Str) : Str := pattern.filter (· ∉ ['\\', '[', ']'])

private theorem literalPath_globText (before after : List GlobToken) (token : GlobToken) :
    literalPath (globText (before ++ token :: after)) =
      literalPath (globText before) ++ literalPath token.text ++ literalPath (globText after) := by
  simp [literalPath, globText]

private theorem literalPath_escaped_comma (before after : List GlobToken) :
    literalPath (globText (before ++ .escaped ',' :: after)) =
      literalPath (globText (before ++ .plainComma (globDepth 0 before) :: after)) := by
  have hcomma : literalPath (GlobToken.plainComma (globDepth 0 before)).text =
      literalPath (GlobToken.escaped ',').text := by
    unfold GlobToken.plainComma
    split <;> rfl
  rw [literalPath_globText, literalPath_globText, hcomma]

private theorem literalMatch_escaped_comma (before after : List GlobToken) :
    (fun path => decide (literalPath (globText (before ++ .escaped ',' :: after)) = path)) =
      fun path => decide (literalPath
        (globText (before ++ .plainComma (globDepth 0 before) :: after)) = path) := by
  rw [literalPath_escaped_comma]

private def literalGlobs : Globset Str :=
  ⟨fun pattern path => decide (literalPath pattern = path),
    fun before after _ => literalMatch_escaped_comma before after⟩

/-- The file `a,b`. -/
private def commaFile : List GlobToken := [.char 'a', .escaped ',', .char 'b']

private theorem isFilter_commaFile : IsFilter commaFile where
  glob := by
    refine ⟨by simp [GlobToken.Ok], by rintro _ ⟨⟩, trivial, ?_, by simp [GlobToken.Ok],
      by rintro _ ⟨⟩, rfl⟩
    exact fun _ _ hstars => absurd hstars.length_le (by decide)
  commas := ⟨by rintro ⟨⟩, by rintro ⟨⟩, by rintro ⟨⟩, trivial⟩
  ne_nil := List.cons_ne_nil _ _
  trimmed := by decide

theorem parseGlobCsv_join_literals :
    literalGlobs.isMatch (globText commaFile) "a,b".toList = true ∧
      List.Forall₂ (fun parsed tokens => literalGlobs.isMatch parsed =
          literalGlobs.isMatch (globText tokens))
        (parseGlobCsv (some "a\\,b,a\\,b".toList)) [commaFile, commaFile] := by
  have htext : "a\\,b,a\\,b".toList =
      List.intercalate [','] ([commaFile, commaFile].map globText) := by
    decide
  have hmem : ∀ tokens ∈ [commaFile, commaFile], tokens = commaFile := by simp
  rw [htext]
  refine ⟨by decide, parseGlobCsv_join literalGlobs (fun tokens htokens => ?_)
    (fun tokens htokens => ?_)⟩
  · rw [hmem tokens htokens]
    exact isFilter_commaFile
  · rw [hmem tokens htokens]
    exact List.forall_mem_cons.mpr ⟨trivial, List.forall_mem_cons.mpr ⟨trivial,
      List.forall_mem_singleton.mpr trivial⟩⟩

/-- The class `[]a,b]` of a bracket, two letters and a comma is split at its comma, so that one
    pattern becomes two. -/
theorem class_of_bracket_is_split :
    IsFilter [.characterClass [] "]a,b".toList] ∧
      parseGlobCsv (some (globText [.characterClass [] "]a,b".toList])) =
        ["[]a".toList, "b]".toList] ∧
      ¬ List.Forall₂ (fun parsed tokens => literalGlobs.isMatch parsed =
          literalGlobs.isMatch (globText tokens))
        (parseGlobCsv (some (List.intercalate [',']
          ([[.characterClass [] "]a,b".toList]].map globText))))
        [[.characterClass [] "]a,b".toList]] := by
  refine ⟨⟨⟨⟨by decide, by decide, by decide, fun _ => by decide⟩, by rintro _ ⟨⟩, rfl⟩,
    ⟨by rintro ⟨⟩, trivial⟩, List.cons_ne_nil _ _, by decide⟩, by decide, fun h => ?_⟩
  exact absurd h.length_eq (by decide)

end Ivygrep.Native
