import Ivygrep.Native.CodeLines
import Ivygrep.Spec.StrCorrect

/-!
# Ranges of code

The ranges of any text: brackets close behind an ASCII byte, so no slice panics, and what is left of
a line is a suffix of it.

## Key results

- `closeOpenBrackets_split`: the place behind a closing bracket
- `visitLine?_suffix`: the code at the end of a line
- `rangesFrom?_spec`: the ranges of lines
-/

namespace Ivygrep.Native

namespace Str

theorem trimEnd_append (left : Str) {right : Str} (h : trimEnd right ≠ []) :
    trimEnd (left ++ right) = left ++ trimEnd right := by
  unfold trimEnd List.rdropWhile at *
  rw [List.reverse_append, List.dropWhile_append, if_neg, List.reverse_append, List.reverse_reverse]
  intro hnil
  rw [List.isEmpty_iff] at hnil
  exact h (by rw [hnil, List.reverse_nil])

theorem trimEnd_blank (left : Str) {right : Str} (h : ∀ c ∈ right, isWhitespace c = true) :
    trimEnd (left ++ right) = trimEnd left := by
  unfold trimEnd List.rdropWhile
  rw [List.reverse_append, List.dropWhile_append_of_pos fun c hc => h c (List.mem_reverse.mp hc)]

/-- What trimming drops of the two ends. -/
theorem exists_trim (text : Str) : ∃ lead trail : Str, text = lead ++ trim text ++ trail ∧
    trimStart text = trim text ++ trail ∧ (∀ c ∈ trail, isWhitespace c = true) := by
  refine ⟨text.takeWhile isWhitespace, (trimStart text).rtakeWhile isWhitespace, ?_, ?_, ?_⟩
  · rw [List.append_assoc, trim, List.rdropWhile_append_rtakeWhile]
    exact List.takeWhile_append_dropWhile.symm
  · exact List.rdropWhile_append_rtakeWhile.symm
  · exact fun c hc => List.mem_rtakeWhile_imp hc

end Str

namespace CodeLines

/-! ## Closing brackets -/

theorem closeFrom_ok {comments : LineComments} {bytes : List UInt8} {brackets : OpenBrackets}
    {offset stop : Nat} (h : closeFrom comments bytes brackets offset = .ok stop) :
    ∃ place byte, bytes[place]? = some byte ∧ byte < 0x80 ∧ stop = place + 1 := by
  fun_induction closeFrom comments bytes brackets offset
  all_goals first
    | contradiction
    | (rename_i ih; exact ih h)
    | skip
  next offset hoffset _ _ _ _ _ _ _ hclosing _ =>
    refine ⟨offset, bytes[offset], List.getElem?_eq_getElem hoffset, ?_, (Except.ok.inj h).symm⟩
    simp only [List.mem_cons, List.not_mem_nil, or_false] at hclosing
    rcases hclosing with hbyte | hbyte | hbyte <;> rw [hbyte] <;> decide

/-- The text behind the brackets. -/
theorem closeOpenBrackets_split {text : Str} {brackets : OpenBrackets} {comments : LineComments}
    {stop : Nat} (h : closeOpenBrackets text brackets comments = .ok stop) :
    ∃ before after, text = before ++ after ∧ Str.len before = stop ∧
      Str.sliceFrom text stop = some after := by
  obtain ⟨place, byte, hbyte, hascii, rfl⟩ := closeFrom_ok h
  obtain ⟨before, after, htext, hlen⟩ :=
    Str.isCharBoundary_iff.mp (Str.isCharBoundary_of_ascii hbyte hascii).2
  refine ⟨before, after, htext, hlen, ?_⟩
  rw [Str.sliceFrom, Str.splitAtByte_eq_some.mpr ⟨htext, hlen⟩]
  rfl

theorem trimStart_suffix (text : Str) : Str.trimStart text <:+ text := List.dropWhile_suffix _

/-! ## Annotations -/

theorem annotation?_suffix {line : Str} {found : Annotation}
    (h : annotation? line = some found) : found.text <:+ line := by
  unfold annotation? at h
  split at h
  · next rest =>
    have hname : rest.dropWhile isIdentifier <:+ '@' :: rest :=
      (List.dropWhile_suffix _).trans (List.suffix_cons _ _)
    simp only at h
    split at h
    · cases h
    · split at h <;> cases h <;> exact hname
  · next rest =>
    have hhash : (Str.stripPrefix rest ['!']).getD rest <:+ '#' :: rest := by
      unfold Str.stripPrefix
      split
      · exact (List.drop_suffix _ _).trans (List.suffix_cons _ _)
      · exact List.suffix_cons _ _
    simp only at h
    split at h <;> cases h
    exact hhash
  · split at h <;> cases h
    exact List.suffix_refl _
  · cases h

theorem closeAnnotation?_suffix (comments : LineComments) (text : Str) :
    ∃ result, closeAnnotation? comments text = some result ∧
      ∀ rest, result = .ok rest → rest <:+ text := by
  unfold closeAnnotation?
  split
  · exact ⟨_, rfl, nofun⟩
  · next stop hstop =>
    obtain ⟨before, after, rfl, -, hslice⟩ := closeOpenBrackets_split hstop
    rw [hslice]
    refine ⟨_, rfl, fun rest hrest => ?_⟩
    cases hrest
    exact (trimStart_suffix after).trans (List.suffix_append _ _)

/-- What is left of a line after its annotations. -/
theorem stripAnnotationPrefix?_suffix (comments : LineComments) (line : Str) :
    ∃ result, stripAnnotationPrefix? comments line = some result ∧
      ∀ code, result = .ok code → code <:+ line := by
  fun_induction stripAnnotationPrefix? comments line with
  | case1 line hline =>
    refine ⟨_, rfl, fun code hcode => ?_⟩
    cases hcode
    exact List.suffix_refl _
  | case2 line rest hline ih =>
    obtain ⟨result, hresult, hsuffix⟩ := ih
    refine ⟨result, hresult, fun code hcode => ?_⟩
    exact ((hsuffix code hcode).trans (trimStart_suffix rest)).trans (annotation?_suffix hline)
  | case3 line text hline hclose =>
    obtain ⟨result, hresult, -⟩ := closeAnnotation?_suffix comments text
    rw [hresult] at hclose
    cases hclose
  | case4 line text hline brackets hclose => exact ⟨_, rfl, nofun⟩
  | case5 line text hline rest hclose ih =>
    obtain ⟨result, hresult, hsuffix⟩ := ih
    refine ⟨result, hresult, fun code hcode => ?_⟩
    obtain ⟨closed, hclosed, hrest⟩ := closeAnnotation?_suffix comments text
    rw [hclosed] at hclose
    exact ((hsuffix code hcode).trans (hrest rest (Option.some.inj hclose))).trans
      (annotation?_suffix hline)

/-! ## Lines -/

theorem visitRest?_suffix (comments : LineComments) (rest : Str) :
    ∃ state code, visitRest? comments rest = some (state, code) ∧
      ∀ c ∈ code, c <:+ rest ∧ c ≠ [] := by
  unfold visitRest? visitCode?
  split
  · exact ⟨_, _, rfl, nofun⟩
  · obtain ⟨result, hresult, hsuffix⟩ := stripAnnotationPrefix?_suffix comments rest
    rw [hresult]
    cases result with
    | error brackets => exact ⟨_, _, rfl, nofun⟩
    | ok code =>
      refine ⟨_, _, rfl, fun c hc => ?_⟩
      rw [Option.mem_def] at hc
      split at hc
      · cases hc
      · next hkept =>
        obtain rfl := Option.some.inj hc
        refine ⟨hsuffix _ rfl, ?_⟩
        rintro rfl
        exact hkept rfl

theorem visitLine?_suffix (comments : LineComments) (state : LineState) (trimmed : Str) :
    ∃ state' code, visitLine? comments state trimmed = some (state', code) ∧
      ∀ c ∈ code, c <:+ trimmed ∧ c ≠ [] := by
  unfold visitLine?
  split
  · exact ⟨_, _, rfl, nofun⟩
  · split
    · exact visitRest?_suffix comments trimmed
    · split
      · exact ⟨_, _, rfl, nofun⟩
      · next stop hstop =>
        obtain ⟨before, after, rfl, -, hslice⟩ := closeOpenBrackets_split hstop
        obtain ⟨state', code, hvisit, hcode⟩ := visitRest?_suffix comments (Str.trimStart after)
        rw [hslice]
        refine ⟨state', code, hvisit, fun c hc => ⟨?_, (hcode c hc).2⟩⟩
        exact ((hcode c hc).1.trans (trimStart_suffix after)).trans (List.suffix_append _ _)

/-- The range of code is where it stands in the line. -/
theorem codeRange_eq (lineStart : Nat) {line code : Str} (hcode : code <:+ Str.trim line)
    (hne : code ≠ []) :
    ∃ first last, line = first ++ code ++ last ∧ Str.trimEnd line = first ++ code ∧
      codeRange lineStart line code =
        (lineStart + Str.len first, lineStart + Str.len first + Str.len code) := by
  obtain ⟨front, hfront⟩ := hcode
  obtain ⟨lead, trail, hline, hstart, htrail⟩ := Str.exists_trim line
  have htrim : Str.trim line ≠ [] := by
    rw [← hfront]
    simp [hne]
  have hself : Str.trimEnd (Str.trim line) = Str.trim line := by
    rw [Str.trim, Str.trimEnd, List.rdropWhile_idempotent]
  have hend : Str.trimEnd line = lead ++ Str.trim line := by
    conv_lhs => rw [hline]
    rw [Str.trimEnd_blank _ htrail, Str.trimEnd_append lead (by rw [hself]; exact htrim), hself]
  refine ⟨lead ++ front, trail, ?_, ?_, ?_⟩
  · rw [List.append_assoc lead, hfront]
    exact hline
  · rw [List.append_assoc, hfront]
    exact hend
  · have hlen : Str.len (Str.trim line) = Str.len front + Str.len code := by
      rw [← hfront, Str.len_append]
    have hwhole : Str.len line = Str.len lead + Str.len (Str.trim line) + Str.len trail := by
      conv_lhs => rw [hline]
      simp [Nat.add_assoc]
    unfold codeRange
    simp only [hstart, hend, Str.len_append, Prod.mk.injEq]
    omega

theorem withoutLast_isPrefix (c : Char) (s : Str) : Str.withoutLast c s <+: s := by
  unfold Str.withoutLast
  split
  · exact List.dropLast_prefix s
  · exact List.prefix_refl s

theorem withoutNewline_isPrefix (line : Str) : withoutNewline line <+: line :=
  (withoutLast_isPrefix _ _).trans (withoutLast_isPrefix _ _)

theorem flatten_splitInclusive (text : Str) : (Str.splitInclusive text).flatten = text := by
  induction text with
  | nil => rfl
  | cons c rest ih =>
    rw [Str.splitInclusive]
    split
    · rw [List.flatten_cons, ih]
      rfl
    · split
      · next hnil =>
        rw [hnil] at ih
        rw [← ih]
        rfl
      · next line lines hlines =>
        rw [hlines] at ih
        rw [← ih]
        rfl

/-- A line has no newline before its end. -/
theorem newline_not_mem_of_splitInclusive {text line : Str} (h : line ∈ Str.splitInclusive text) :
    '\n' ∉ withoutNewline line := by
  suffices hlast : '\n' ∉ line.dropLast by
    unfold withoutNewline
    intro hmem
    have hmem := (withoutLast_isPrefix _ _).subset hmem
    unfold Str.withoutLast at hmem
    split at hmem
    · exact hlast hmem
    · next hnot =>
      have hne : line ≠ [] := List.ne_nil_of_mem hmem
      rw [← List.dropLast_append_getLast hne, List.mem_append] at hmem
      rcases hmem with hmem | hmem
      · exact hlast hmem
      · rw [List.getLast?_eq_some_getLast hne, ← List.mem_singleton.mp hmem] at hnot
        exact hnot rfl
  induction text generalizing line with
  | nil => cases h
  | cons c rest ih =>
    rw [Str.splitInclusive] at h
    split at h
    · rcases List.mem_cons.mp h with rfl | h
      · exact List.not_mem_nil
      · exact ih h
    · next hc =>
      split at h
      · rw [List.mem_singleton.mp h]
        exact List.not_mem_nil
      · next first lines hlines =>
        rw [hlines] at ih
        rcases List.mem_cons.mp h with rfl | h
        · have hfirst := ih List.mem_cons_self
          cases first with
          | nil => exact List.not_mem_nil
          | cons d first =>
            rw [List.dropLast_cons_of_ne_nil (List.cons_ne_nil d first)]
            exact List.not_mem_cons_of_ne_of_not_mem (Ne.symm hc) hfirst
        · exact ih (List.mem_cons_of_mem _ h)

/-- A range that is a part of one line. -/
def InLine (text : Str) (range : Nat × Nat) : Prop :=
  range.1 < range.2 ∧ ∃ line, Str.slice text range.1 range.2 = some line ∧ '\n' ∉ line

/-- Each line gives at most one range, after those of the lines before it. -/
theorem rangesFrom?_spec (comments : LineComments) (before : Str) (state : LineState)
    (lines : List Str) (hlines : ∀ line ∈ lines, '\n' ∉ withoutNewline line) :
    ∃ ranges, rangesFrom? comments (Str.len before) state lines = some ranges ∧
      (∀ range ∈ ranges, Str.len before ≤ range.1 ∧ InLine (before ++ lines.flatten) range) ∧
      ranges.Pairwise fun left right => left.2 ≤ right.1 := by
  induction lines generalizing before state with
  | nil => exact ⟨[], rfl, nofun, .nil⟩
  | cons line lines ih =>
    obtain ⟨hline, hlines⟩ := List.forall_mem_cons.mp hlines
    obtain ⟨state', code, hvisit, hcode⟩ :=
      visitLine?_suffix comments state (Str.trim (withoutNewline line))
    obtain ⟨ranges, hranges, hin, hsorted⟩ := ih (before ++ line) state' hlines
    rw [Str.len_append] at hranges
    have hrest : ∀ range ∈ ranges, Str.len before ≤ range.1 ∧
        InLine (before ++ (line :: lines).flatten) range := by
      intro range hrange
      obtain ⟨hle, hpart⟩ := hin range hrange
      rw [Str.len_append] at hle
      rw [List.append_assoc] at hpart
      exact ⟨by omega, hpart⟩
    rw [rangesFrom?, hvisit]
    simp only [bind, Option.bind, hranges]
    refine ⟨_, rfl, ?_⟩
    cases code with
    | none => exact ⟨hrest, hsorted⟩
    | some code =>
      obtain ⟨hsuffix, hne⟩ := hcode code rfl
      obtain ⟨first, last, hsplit, -, hrange⟩ := codeRange_eq (Str.len before) hsuffix hne
      have hpos : 0 < Str.len code := Nat.pos_of_ne_zero fun hzero => hne (Str.len_eq_zero hzero)
      obtain ⟨ending, hending⟩ := withoutNewline_isPrefix line
      have hlen : Str.len first + Str.len code ≤ Str.len line := by
        rw [← hending, hsplit]
        simp only [Str.len_append]
        omega
      simp only [Option.map_some, Option.toList_some, List.singleton_append, hrange]
      refine ⟨List.forall_mem_cons.mpr ⟨⟨Nat.le_add_right _ _, ?_, code, ?_, ?_⟩, hrest⟩,
        List.pairwise_cons.mpr ⟨fun range hmem => ?_, hsorted⟩⟩
      · show Str.len before + Str.len first < Str.len before + Str.len first + Str.len code
        omega
      · refine Str.slice_eq_some.mpr ⟨before ++ first, last ++ ending ++ lines.flatten, ?_,
          Str.len_append _ _, rfl⟩
        rw [List.flatten_cons, ← hending, hsplit]
        simp
      · intro hnewline
        apply hline
        rw [hsplit]
        exact List.mem_append_left _ (List.mem_append_right _ hnewline)
      · have hle := (hin range hmem).1
        rw [Str.len_append] at hle
        show Str.len before + Str.len first + Str.len code ≤ range.1
        omega

theorem codeLineRanges?_inLine (text language : Str) :
    ∃ ranges, codeLineRanges? text language = some ranges ∧
      (∀ range ∈ ranges, InLine text range) ∧
      ranges.Pairwise fun left right => left.2 ≤ right.1 := by
  obtain ⟨ranges, hranges, hin, hsorted⟩ := rangesFrom?_spec (.forLanguage language) [] .start
    (Str.splitInclusive text) fun line hline => newline_not_mem_of_splitInclusive hline
  rw [flatten_splitInclusive] at hin
  exact ⟨ranges, hranges, fun range hrange => (hin range hrange).2, hsorted⟩

end CodeLines

end Ivygrep.Native
