import Ivygrep.Native.Overlay
import Ivygrep.ForStd.Brackets

/-!
# Grouped imports

The expansion of a grouped import, such as `a::{b, c::{self, d}}`, into the paths of its members,
from `context_graph.rs`.
-/

namespace Ivygrep.Native

open ForStd.Brackets

/-- `str::trim_end_matches` for a string pattern. -/
def Str.trimEndMatches (s pattern : Str) : Str :=
  if _h : pattern ≠ [] ∧ pattern <:+ s then
    trimEndMatches (s.take (s.length - pattern.length)) pattern
  else s
termination_by s.length
decreasing_by
  have hpattern := List.length_pos_iff.mpr _h.1
  have hle := _h.2.length_le
  simp only [List.length_take]
  omega

/-- `str::split_whitespace().next()`, with the empty text for no word. -/
def Str.firstWord (s : Str) : Str := (trimStart s).takeWhile fun c => !isWhitespace c

/-- The keyword that a PHP import may have before its path. -/
def stripImportKeyword (spec : Str) : Str :=
  ((Str.stripPrefix spec "function ".toList).or (Str.stripPrefix spec "const ".toList)).getD spec

/-- `split_top_level_specs`. -/
def splitTopLevelSpecs (value : Str) : List Str :=
  ((splitOutside '{' '}' ',' 0 [] value).map Str.trim).filter fun spec => !spec.isEmpty

/-- `rsplit([':', '.']).next()`. -/
def terminalName (target : Str) : Str := target.rtakeWhile fun c => c != ':' && c != '.'

/-- The branch of `expand_grouped_spec` for a path without a group. -/
def expandPath (value : Str) : List Str :=
  let target := Str.firstWord value
  let terminal := terminalName target
  if terminal = "self".toList then
    (((Str.stripSuffix target "::self".toList).or
      (Str.stripSuffix target ".self".toList)).filter fun parent => !parent.isEmpty).toList
  else if target ≠ [] ∧ terminal ≠ ['_'] ∧ terminal ≠ ['*'] then [target]
  else []

/-- The path before a group and the separator between the path and the group. -/
def splitSeparator (path : Str) : Str × Str :=
  match Str.stripSuffix path "::".toList with
  | some parent => (parent, "::".toList)
  | none =>
    match Str.stripSuffix path ".".toList with
    | some parent => (parent, ".".toList)
    | none =>
      match Str.stripSuffix path "\\".toList with
      | some parent => (parent, "\\".toList)
      | none =>
        match Str.stripSuffix path "/".toList with
        | some parent => (parent, "/".toList)
        | none => (path, "::".toList)

/-- The text that a member of a group is expanded from, which is the path of the group with the
    member in place of the group. -/
def nestedSpec (path member : Str) : Str :=
  (splitSeparator path).1 ++ (splitSeparator path).2 ++ stripImportKeyword (Str.trim member)

/-! ## Termination -/

theorem count_of_splitOnce {sep : Char} {s before after : Str}
    (h : Str.splitOnce sep s = some (before, after)) :
    s.count sep = after.count sep + 1 ∧ sep ∉ before := by
  induction s generalizing before with
  | nil => simp [Str.splitOnce] at h
  | cons c rest ih =>
    simp only [Str.splitOnce] at h
    split at h
    · rename_i hc
      cases h
      simp [hc]
    · rename_i hc
      obtain ⟨⟨front, back⟩, hfront, heq⟩ := Option.map_eq_some_iff.mp h
      cases heq
      have hcount := ih hfront
      simp [hcount.1, hcount.2, hc, Ne.symm hc]

theorem trim_sublist (s : Str) : List.Sublist (Str.trim s) s :=
  (List.rdropWhile_prefix _ _).sublist.trans (List.dropWhile_suffix _).sublist

theorem stripPrefix_sublist {s pattern rest : Str} (h : Str.stripPrefix s pattern = some rest) :
    List.Sublist rest s := by
  unfold Str.stripPrefix at h
  split at h
  · cases h
    exact List.drop_sublist _ _
  · cases h

theorem stripSuffix_sublist {s pattern rest : Str} (h : Str.stripSuffix s pattern = some rest) :
    List.Sublist rest s := by
  unfold Str.stripSuffix at h
  split at h
  · cases h
    exact List.take_sublist _ _
  · cases h

theorem stripImportKeyword_sublist (spec : Str) : List.Sublist (stripImportKeyword spec) spec := by
  unfold stripImportKeyword
  cases hfunction : Str.stripPrefix spec "function ".toList with
  | some rest => exact stripPrefix_sublist hfunction
  | none =>
    cases hconst : Str.stripPrefix spec "const ".toList with
    | some rest => exact stripPrefix_sublist hconst
    | none => exact List.Sublist.refl spec

theorem splitSeparator_sublist (path : Str) : List.Sublist (splitSeparator path).1 path := by
  unfold splitSeparator
  repeat' split
  all_goals first | exact stripSuffix_sublist ‹_› | exact List.Sublist.refl path

theorem bracket_not_mem_splitSeparator (path : Str) : '{' ∉ (splitSeparator path).2 := by
  unfold splitSeparator
  repeat' split
  all_goals simp

/-- A member of a group has fewer groups than the text of the group. -/
theorem count_nestedSpec_lt {value before after group member : Str}
    (hopen : Str.splitOnce '{' (Str.trim value) = some (before, after))
    (hclose : beforeClosing '{' '}' 1 after = some group)
    (hmember : member ∈ splitOutside '{' '}' ',' 0 [] group) :
    (nestedSpec before member).count '{' < value.count '{' := by
  obtain ⟨hcount, hbefore⟩ := count_of_splitOnce hopen
  have hvalue := (trim_sublist value).count_le '{'
  have hgroup := count_beforeClosing_le hclose '{'
  have hpart := count_of_mem_splitOutside hmember '{'
  have hstripped := ((stripImportKeyword_sublist _).trans (trim_sublist member)).count_le '{'
  have hpath := (splitSeparator_sublist before).count_le '{'
  have hnone := List.count_eq_zero.mpr hbefore
  have hseparator := List.count_eq_zero.mpr (bracket_not_mem_splitSeparator before)
  simp only [nestedSpec, List.count_append, List.count_nil] at hpart ⊢
  omega

/-! ## Expansion -/

/-- `expand_grouped_spec`. -/
def expandGroupedSpec (value : Str) : List Str :=
  match _hopen : Str.splitOnce '{' (Str.trim value) with
  | none => expandPath (Str.trim value)
  | some (before, after) =>
    match _hclose : beforeClosing '{' '}' 1 after with
    | none => [Str.trimEndMatches before "::".toList]
    | some group =>
      (splitOutside '{' '}' ',' 0 [] group).attach.flatMap fun ⟨member, _⟩ =>
        expandGroupedSpec (nestedSpec before member)
termination_by value.count '{'
decreasing_by exact count_nestedSpec_lt _hopen _hclose ‹_›

/-- `rust_use_specs`. An indented declaration may stand in a module of its own, so that its `self`
    and `super` paths are not those of the file. -/
def rustUseSpecs (value : Str) (indented : Bool) : List Str :=
  let specs := expandGroupedSpec value
  if indented then
    specs.filter fun spec =>
      !Str.startsWith spec "self::".toList && !Str.startsWith spec "super::".toList
  else specs

/-- `php_import_specs`. -/
def phpImportSpecs (value : Str) : List Str :=
  ((splitTopLevelSpecs (stripImportKeyword value)).flatMap fun spec =>
    expandGroupedSpec (stripImportKeyword spec)).map fun spec =>
      spec.map fun c => if c = '\\' then '/' else c

end Ivygrep.Native
