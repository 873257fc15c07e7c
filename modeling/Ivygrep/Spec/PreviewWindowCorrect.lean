import Ivygrep.Native.PreviewWindow
import Ivygrep.Spec.LiteralFilesCorrect

/-!
# Previews of long lines keep the match

The range of a match covers whole characters, and folding them gives the query. The window around a
range on character boundaries has all of it.

## Key results

- `literalMatchRange_spec`: the range of a match
- `previewLineWindow?_covers`: the window
- `previewLineWindow?_eq`: the window of literal search
- `preview_keeps_match`: both
-/

namespace Ivygrep.Native

open ForStd

/-! ## Finding a text -/

namespace Str

theorem find_eq_some {pattern text : Str} {offset : Nat} (h : find pattern text = some offset) :
    ∃ before after, text = before ++ pattern ++ after ∧ offset = len before := by
  induction text generalizing offset with
  | nil =>
    unfold find at h
    split at h
    · next hempty =>
      obtain rfl := Option.some.inj h
      exact ⟨[], [], by simp [hempty], rfl⟩
    · cases h
  | cons c text ih =>
    unfold find at h
    split at h
    · next hstarts =>
      obtain rfl := Option.some.inj h
      obtain ⟨after, hafter⟩ := List.isPrefixOf_iff_prefix.mp hstarts
      exact ⟨[], after, hafter.symm, rfl⟩
    · obtain ⟨rest, hrest, rfl⟩ := Option.map_eq_some_iff.mp h
      obtain ⟨before, after, rfl, rfl⟩ := ih hrest
      exact ⟨c :: before, after, rfl, (len_cons c before).symm⟩

theorem find_isSome_iff {pattern text : Str} :
    (find pattern text).isSome ↔ contains text pattern := by
  rw [contains, decide_eq_true_eq]
  constructor
  · intro h
    obtain ⟨offset, hoffset⟩ := Option.isSome_iff_exists.mp h
    obtain ⟨before, after, rfl, -⟩ := find_eq_some hoffset
    exact ⟨before, after, rfl⟩
  · intro h
    induction text with
    | nil =>
      obtain rfl := List.infix_nil.mp h
      rfl
    | cons c text ih =>
      unfold find
      split
      · rfl
      · next hnot =>
        have hrest := (List.infix_cons_iff.mp h).resolve_left fun hprefix =>
          hnot (List.isPrefixOf_iff_prefix.mpr hprefix)
        rw [Option.isSome_map]
        exact ih hrest

theorem dropBytes_len (before after : Str) : dropBytes (len before) (before ++ after) = after := by
  induction before with
  | nil => cases after <;> rfl
  | cons c before ih =>
    have hpos := c.utf8Size_pos
    rw [len_cons, List.cons_append, dropBytes, if_neg (by omega), Nat.add_sub_cancel_left, ih]

end Str

/-! ## The range of a match -/

section

variable (lowercase : Lowercase)

/-- The folded text of some characters. -/
abbrev foldText (text : Str) : Str := text.flatMap lowercase.foldLiteralChar

/-- The character that a byte of the folded line comes from. -/
theorem foldOrigins_last (line : Str) (offset : Nat) {folded place : Nat} (hle : folded ≤ place)
    (hlt : place < folded + Str.len (foldText lowercase line)) :
    ∃ before c after, line = before ++ c :: after ∧
      folded + Str.len (foldText lowercase before) ≤ place ∧
      place < folded + Str.len (foldText lowercase (before ++ [c])) ∧
      (((foldOrigins lowercase folded offset line).takeWhile fun origin =>
        origin.1 ≤ place).getLast?.map Prod.snd) = some (offset + Str.len before) := by
  induction line generalizing folded offset with
  | nil =>
    simp only [foldText, List.flatMap_nil, Str.len_nil] at hlt
    omega
  | cons c line ih =>
    rw [foldOrigins, List.takeWhile_cons, if_pos (by simpa using hle)]
    by_cases hnext : folded + Str.len (lowercase.foldLiteralChar c) ≤ place
    · have hlt' : place < folded + Str.len (lowercase.foldLiteralChar c) +
          Str.len (foldText lowercase line) := by
        simp only [foldText, List.flatMap_cons, Str.len_append] at hlt ⊢
        omega
      obtain ⟨before, d, after, rfl, hfrom, hto, hlast⟩ :=
        ih (offset + c.utf8Size) hnext hlt'
      refine ⟨c :: before, d, after, rfl, ?_, ?_, ?_⟩
      · simp only [foldText, List.flatMap_cons, Str.len_append] at hfrom ⊢
        omega
      · simp only [foldText, List.cons_append, List.flatMap_cons, Str.len_append] at hto ⊢
        omega
      · obtain ⟨origin, horigin, heq⟩ := Option.map_eq_some_iff.mp hlast
        rw [List.getLast?_cons, horigin, Option.getD_some, Option.map_some, heq, Str.len_cons,
          Nat.add_assoc]
    · -- The next character starts beyond the place.
      refine ⟨[], c, line, rfl, by simpa using hle, ?_, ?_⟩
      · simp only [foldText, List.nil_append, List.flatMap_singleton]
        omega
      · have hstop : (foldOrigins lowercase (folded + Str.len (lowercase.foldLiteralChar c))
            (offset + c.utf8Size) line).takeWhile (fun origin => origin.1 ≤ place) = [] := by
          cases line with
          | nil => rfl
          | cons d line => rw [foldOrigins, List.takeWhile_cons, if_neg (by simpa using hnext)]
        rw [hstop]
        rfl

theorem literalMatchRange_isSome {line query : Str} (hquery : query ≠ []) :
    (literalMatchRange lowercase line query).isSome ↔
      Str.contains (lowercase.foldLiteralCase line) query := by
  rw [← Str.find_isSome_iff]
  unfold literalMatchRange Lowercase.foldLiteralCase
  rw [if_neg hquery]
  split <;> rw [Option.isSome_map]

/-- A part between two places of a text that covers an occurrence has it. -/
theorem isInfix_of_cover {before pattern after first part last : Str}
    (h : before ++ pattern ++ after = first ++ part ++ last)
    (hstart : Str.len first ≤ Str.len before)
    (hstop : Str.len before + Str.len pattern ≤ Str.len first + Str.len part) :
    pattern <:+: part := by
  rw [List.append_assoc, List.append_assoc] at h
  obtain ⟨left, rfl, hrest⟩ := Str.exists_middle h.symm hstart
  have hrest' : (left ++ pattern) ++ after = part ++ last := by
    rw [hrest, List.append_assoc]
  rw [Str.len_append] at hstop
  obtain ⟨right, rfl, -⟩ := Str.exists_middle hrest' (by rw [Str.len_append]; omega)
  exact ⟨left, right, rfl⟩

/-- The range of a match is a part of the line whose folded text has the query. -/
theorem literalMatchRange_spec {line query : Str} {found : Nat × Nat}
    (h : literalMatchRange lowercase line query = some found) :
    found.1 < found.2 ∧ ∃ part, Str.slice line found.1 found.2 = some part ∧
      Str.contains (lowercase.foldLiteralCase part) query := by
  unfold literalMatchRange at h
  split at h
  · cases h
  next hquery =>
  have hpos : 0 < Str.len query := Nat.pos_of_ne_zero fun hzero => hquery (Str.len_eq_zero hzero)
  split at h
  · next hascii =>
    obtain ⟨start, hfind, rfl⟩ := Option.map_eq_some_iff.mp h
    obtain ⟨before, after, htext, rfl⟩ := Str.find_eq_some hfind
    obtain ⟨whole, last, rfl, hwhole, hafter⟩ := List.map_eq_append_iff.mp htext
    obtain ⟨first, part, rfl, rfl, hpart⟩ := List.map_eq_append_iff.mp hwhole
    -- ASCII letters have the same length in either case.
    have hfirst : Str.len (first.map Char.toLower) = Str.len first := Str.len_toAsciiLowercase first
    have hlength : Str.len query = Str.len part := by
      rw [← hpart]
      exact Str.len_toAsciiLowercase part
    refine ⟨Nat.lt_add_of_pos_right hpos, part, ?_, ?_⟩
    · exact Str.slice_eq_some.mpr ⟨first, last, rfl, hfirst.symm, by rw [hlength]⟩
    · have hpartAscii : part.all isAsciiChar := by
        rw [List.all_append, List.all_append, Bool.and_eq_true, Bool.and_eq_true] at hascii
        exact hascii.1.2
      rw [Lowercase.foldLiteralCase, if_pos hpartAscii, Str.toAsciiLowercase, hpart]
      simp [Str.contains]
  · obtain ⟨place, hfind, rfl⟩ := Option.map_eq_some_iff.mp h
    obtain ⟨before, after, htext, rfl⟩ := Str.find_eq_some hfind
    have hlength : Str.len (foldText lowercase line) =
        Str.len before + Str.len query + Str.len after := by
      rw [foldText, htext, Str.len_append, Str.len_append]
    obtain ⟨left, c, leftRest, hleft, hleftFrom, hleftTo, hstart⟩ :=
      foldOrigins_last lowercase line 0 (Nat.zero_le (Str.len before))
        (by omega)
    obtain ⟨right, d, rightRest, hright, hrightFrom, hrightTo, hlast⟩ :=
      foldOrigins_last lowercase line 0
        (Nat.zero_le (Str.len before + Str.len query - 1)) (by omega)
    simp only [hstart, hlast, Option.getD_some, Nat.zero_add] at *
    have hsplit : left ++ c :: leftRest = (right ++ [d]) ++ rightRest := by
      rw [← hleft, hright]
      simp
    have hdrop : Str.dropBytes (Str.len right) line = d :: rightRest := by
      rw [hright, Str.dropBytes_len]
    have horder : Str.len left ≤ Str.len (right ++ [d]) := by
      rcases Nat.le_total (Str.len left) (Str.len (right ++ [d])) with hle | hge
      · exact hle
      · obtain ⟨middle, rfl, -⟩ := Str.exists_middle hsplit.symm hge
        simp only [foldText, List.flatMap_append, Str.len_append] at hleftFrom hrightTo
        omega
    obtain ⟨part, hpart, -⟩ := Str.exists_middle hsplit horder
    have hline : line = left ++ part ++ rightRest := by
      rw [hleft, hsplit, hpart]
    have hstop : Str.len right + d.utf8Size = Str.len left + Str.len part := by
      have hlen := congrArg Str.len hpart
      simpa using hlen
    rw [hdrop, List.head?_cons, Option.map_some, Option.getD_some, hstop]
    refine ⟨?_, part, Str.slice_eq_some.mpr ⟨left, rightRest, hline, rfl, rfl⟩, ?_⟩
    · refine Nat.lt_add_of_pos_right (Nat.pos_of_ne_zero fun hzero => ?_)
      -- Otherwise the query would start and end at one place of the folded line.
      rw [hpart, Str.len_eq_zero hzero, List.append_nil] at hrightTo
      omega
    · rw [Lowercase.foldLiteralCase_eq, Str.contains, decide_eq_true_eq]
      have hfold : before ++ query ++ after =
          foldText lowercase left ++ foldText lowercase part ++ foldText lowercase rightRest := by
        rw [← htext, hline, List.flatMap_append, List.flatMap_append]
      refine isInfix_of_cover hfold hleftFrom ?_
      rw [hpart] at hrightTo
      simp only [foldText, List.flatMap_append, Str.len_append] at hrightTo ⊢
      omega

end

/-! ## The window -/

section

variable {line : Str}

/-- The least character boundary from `start` on. -/
theorem nextCharBoundary_eq (line : Str) (rounds start : Nat) (hle : start ≤ Str.len line)
    (hrounds : Str.len line < start + rounds) :
    ∃ next, nextCharBoundary line rounds start = some next ∧ Str.isCharBoundary line next ∧
      start ≤ next ∧
      ∀ offset, Str.isCharBoundary line offset → start ≤ offset → next ≤ offset := by
  induction rounds generalizing start with
  | zero => omega
  | succ rounds ih =>
    rw [nextCharBoundary]
    split
    · next hboundary => exact ⟨start, rfl, hboundary, Nat.le_refl _, fun _ _ hoffset => hoffset⟩
    · next hnot =>
      have hne : start ≠ Str.len line := by
        intro heq
        rw [heq] at hnot
        exact hnot (Str.isCharBoundary_end line)
      obtain ⟨next, hnext, hboundary, hstart, hleast⟩ :=
        ih (start + 1) (by omega) (by omega)
      refine ⟨next, hnext, hboundary, by omega, fun offset hoffset hfrom => ?_⟩
      have hother : start ≠ offset := by
        intro heq
        rw [heq] at hnot
        exact hnot hoffset
      exact hleast offset hoffset (by omega)

/-- The greatest character boundary up to `stop`. -/
theorem lastCharBoundary_eq (line : Str) (stop : Nat) :
    ∃ last, lastCharBoundary line stop = some last ∧ Str.isCharBoundary line last ∧
      last ≤ stop ∧
      ∀ offset, Str.isCharBoundary line offset → offset ≤ stop → offset ≤ last := by
  induction stop with
  | zero =>
    rw [lastCharBoundary, if_pos (Str.isCharBoundary_zero line)]
    exact ⟨0, rfl, Str.isCharBoundary_zero line, Nat.le_refl _, fun _ _ hoffset => hoffset⟩
  | succ stop ih =>
    rw [lastCharBoundary]
    split
    · next hboundary => exact ⟨stop + 1, rfl, hboundary, Nat.le_refl _, fun _ _ hoffset => hoffset⟩
    · next hnot =>
      obtain ⟨last, hlast, hboundary, hstop, hgreatest⟩ := ih
      refine ⟨last, hlast, hboundary, by omega, fun offset hoffset hto => ?_⟩
      have hother : offset ≠ stop + 1 := by
        intro heq
        rw [heq] at hoffset
        exact hnot hoffset
      exact hgreatest offset hoffset (by omega)

theorem windowStart_le (line : Str) (firstMatch : Option (Nat × Nat)) :
    windowStart line firstMatch ≤ Str.len line - maxPreviewLineBytes := by
  unfold windowStart
  split
  · exact Nat.zero_le _
  · exact Nat.min_le_right _ _

/-- A range that fits is in the window that starts there. -/
theorem windowStart_covers {range : Nat × Nat} (horder : range.1 ≤ range.2)
    (hle : range.2 ≤ Str.len line) (hfits : range.2 - range.1 ≤ maxPreviewLineBytes) :
    windowStart line (some range) ≤ range.1 ∧
      range.2 ≤ windowStart line (some range) + maxPreviewLineBytes := by
  have hfilter : (some range).filter (fun found => found.1 ≤ found.2 ∧ found.2 ≤ Str.len line) =
      some range := by
    simp [Option.filter, horder, hle]
  rw [windowStart, hfilter]
  simp only
  omega

/-- What `preview_line_window` makes of a line that is cut. -/
def IsWindow (line : Str) (start stop : Nat) (result : Str) : Prop :=
  ∃ window, Str.slice line start stop = some window ∧ Str.len window ≤ maxPreviewLineBytes ∧
    -- An ellipsis on each side that is cut.
    result = (if 0 < start then previewCutMarker else []) ++ window ++
      (if stop < Str.len line then previewCutMarker else [])

/-- The window has every range between character boundaries of what it was asked for. -/
theorem previewLineWindow?_spec (line : Str) (firstMatch : Option (Nat × Nat)) :
    (Str.len line ≤ maxPreviewLineBytes ∧ previewLineWindow? line firstMatch = some line) ∨
      ∃ start stop result, previewLineWindow? line firstMatch = some result ∧
        IsWindow line start stop result ∧
        (∀ offset, Str.isCharBoundary line offset → windowStart line firstMatch ≤ offset →
          start ≤ offset) ∧
        ∀ offset, Str.isCharBoundary line offset →
          offset ≤ windowStart line firstMatch + maxPreviewLineBytes → offset ≤ stop := by
  rcases Nat.lt_or_ge maxPreviewLineBytes (Str.len line) with hlong | hshort
  · right
    have hfrom := windowStart_le line firstMatch
    obtain ⟨start, hstart, hstartBoundary, hstartLe, hleast⟩ :=
      nextCharBoundary_eq line (Str.len line + 1) (windowStart line firstMatch) (by omega)
        (by omega)
    obtain ⟨stop, hstop, hstopBoundary, hstopLe, hgreatest⟩ :=
      lastCharBoundary_eq line (min (start + maxPreviewLineBytes) (Str.len line))
    have hstartEnd := Str.isCharBoundary_le hstartBoundary
    have horder : start ≤ stop := hgreatest start hstartBoundary (by omega)
    obtain ⟨window, hwindow, hlength⟩ := Str.exists_slice hstartBoundary hstopBoundary horder
    refine ⟨start, stop, _, ?_, ⟨window, hwindow, by omega, rfl⟩, hleast,
      fun offset hoffset hto => ?_⟩
    · rw [previewLineWindow?, if_neg (Nat.not_le.mpr hlong)]
      simp only [hstart, hstop, hwindow, Option.bind_eq_bind, Option.bind_some]
      rfl
    · have hoffsetLe := Str.isCharBoundary_le hoffset
      exact hgreatest offset hoffset (by omega)
  · refine .inl ⟨hshort, ?_⟩
    rw [previewLineWindow?, if_pos hshort]
    rfl

/-- The window has a range between character boundaries that fits. -/
theorem previewLineWindow?_covers {range : Nat × Nat} (hstart : Str.isCharBoundary line range.1)
    (hstop : Str.isCharBoundary line range.2) (horder : range.1 ≤ range.2)
    (hfits : range.2 - range.1 ≤ maxPreviewLineBytes) :
    previewLineWindow? line (some range) = some line ∨
      ∃ start stop result, previewLineWindow? line (some range) = some result ∧
        IsWindow line start stop result ∧ start ≤ range.1 ∧ range.2 ≤ stop := by
  rcases previewLineWindow?_spec line (some range) with
    ⟨-, hwhole⟩ | ⟨start, stop, result, hresult, hwindow, hleast, hgreatest⟩
  · exact .inl hwhole
  · obtain ⟨hfrom, hto⟩ := windowStart_covers horder (Str.isCharBoundary_le hstop) hfits
    exact .inr ⟨start, stop, result, hresult, hwindow, hleast _ hstart hfrom,
      hgreatest _ hstop hto⟩

end

/-! ## The whole preview -/

namespace Str

/-- The text before what `dropBytes` leaves ends at the least boundary from the offset on. -/
theorem dropBytes_spec (offset : Nat) (text : Str) :
    ∃ before, text = before ++ dropBytes offset text ∧
      (offset ≤ len text → offset ≤ len before) ∧
      ∀ place, isCharBoundary text place → offset ≤ place → len before ≤ place := by
  induction text generalizing offset with
  | nil => exact ⟨[], rfl, fun h => h, fun place _ _ => by simp⟩
  | cons c text ih =>
    rw [dropBytes]
    split
    · next hzero => exact ⟨[], rfl, fun _ => by simp [hzero], fun place _ _ => by simp⟩
    · next hpos =>
      obtain ⟨before, htext, hfrom, hleast⟩ := ih (offset - c.utf8Size)
      refine ⟨c :: before, congrArg (c :: ·) htext, fun hle => ?_, fun place hplace hle => ?_⟩
      · rw [len_cons] at hle ⊢
        have hfrom := hfrom (by omega)
        omega
      · rw [len_cons]
        -- A boundary other than the start is behind the first character.
        obtain ⟨first, last, hsplit, rfl⟩ := isCharBoundary_iff.mp hplace
        cases first with
        | nil => simp at hle; omega
        | cons d first =>
          obtain ⟨rfl, rfl⟩ := List.cons_eq_cons.mp hsplit
          rw [len_cons] at hle ⊢
          have hrest := hleast (len first) (isCharBoundary_len first last) (by omega)
          omega

/-- `takeBytes` takes the text up to the greatest boundary that is not beyond the offset. -/
theorem takeBytes_spec (offset : Nat) (text : Str) :
    ∃ after, text = takeBytes offset text ++ after ∧ len (takeBytes offset text) ≤ offset ∧
      ∀ place, isCharBoundary text place → place ≤ offset →
        place ≤ len (takeBytes offset text) := by
  induction text generalizing offset with
  | nil =>
    refine ⟨[], rfl, Nat.zero_le _, fun place hplace _ => ?_⟩
    obtain rfl : place = 0 := by simpa using isCharBoundary_le hplace
    exact Nat.zero_le _
  | cons c text ih =>
    rw [takeBytes]
    split
    · next hfits =>
      obtain ⟨after, htext, hle, hgreatest⟩ := ih (offset - c.utf8Size)
      refine ⟨after, congrArg (c :: ·) htext, ?_, fun place hplace hto => ?_⟩
      · rw [len_cons]
        omega
      · obtain ⟨first, last, hsplit, rfl⟩ := isCharBoundary_iff.mp hplace
        cases first with
        | nil => simp
        | cons d first =>
          obtain ⟨rfl, rfl⟩ := List.cons_eq_cons.mp hsplit
          rw [len_cons] at hto ⊢
          rw [len_cons]
          have hrest := hgreatest (len first) (isCharBoundary_len first last) (by omega)
          omega
    · next hwide =>
      refine ⟨c :: text, rfl, Nat.zero_le _, fun place hplace hto => ?_⟩
      obtain ⟨first, last, hsplit, rfl⟩ := isCharBoundary_iff.mp hplace
      cases first with
      | nil => simp
      | cons d first =>
        obtain ⟨rfl, rfl⟩ := List.cons_eq_cons.mp hsplit
        rw [len_cons] at hto
        omega

end Str

theorem previewLineWindow_of_long {line : Str} (firstMatch : Option (Nat × Nat))
    (hlong : maxPreviewLineBytes < Str.len line) :
    previewLineWindow line firstMatch =
      (if 0 < windowStart line firstMatch then previewCutMarker else []) ++
        Str.takeBytes maxPreviewLineBytes (Str.dropBytes (windowStart line firstMatch) line) ++
        (if Str.len (Str.takeBytes maxPreviewLineBytes
              (Str.dropBytes (windowStart line firstMatch) line)) <
            Str.len (Str.dropBytes (windowStart line firstMatch) line) then previewCutMarker
          else []) := by
  rw [previewLineWindow, if_neg (Nat.not_le.mpr hlong)]
  rfl

/-- The loops and the slice compute the window of literal search. -/
theorem previewLineWindow?_eq (line : Str) (firstMatch : Option (Nat × Nat)) :
    previewLineWindow? line firstMatch = some (previewLineWindow line firstMatch) := by
  rcases Nat.lt_or_ge maxPreviewLineBytes (Str.len line) with hlong | hshort
  · have hfrom := windowStart_le line firstMatch
    obtain ⟨start, hstart, hstartBoundary, hstartLe, hleast⟩ :=
      nextCharBoundary_eq line (Str.len line + 1) (windowStart line firstMatch) (by omega)
        (by omega)
    obtain ⟨stop, hstop, hstopBoundary, hstopLe, hgreatest⟩ :=
      lastCharBoundary_eq line (min (start + maxPreviewLineBytes) (Str.len line))
    obtain ⟨before, hline, hbefore, hbeforeLeast⟩ :=
      Str.dropBytes_spec (windowStart line firstMatch) line
    obtain ⟨last, hrest, hwidth, hmost⟩ :=
      Str.takeBytes_spec maxPreviewLineBytes (Str.dropBytes (windowStart line firstMatch) line)
    generalize hrestEq : Str.dropBytes (windowStart line firstMatch) line = rest at *
    generalize hwindowEq : Str.takeBytes maxPreviewLineBytes rest = window at *
    subst hrest
    have hline' : line = before ++ window ++ last := by rw [hline, List.append_assoc]
    have hlength : Str.len line = Str.len before + Str.len window + Str.len last := by
      rw [hline', Str.len_append, Str.len_append]
    have hstartEq : start = Str.len before := by
      have hfirst := hbeforeLeast start hstartBoundary hstartLe
      refine Nat.le_antisymm (hleast _ ?_ (hbefore (by omega))) hfirst
      rw [hline]
      exact Str.isCharBoundary_len before _
    have hstopEq : stop = Str.len before + Str.len window := by
      refine Nat.le_antisymm ?_ (hgreatest _ ?_ (by omega))
      · -- What is beyond the start is a boundary of the rest.
        have horder : Str.len before ≤ stop := by
          rw [← hstartEq]
          exact hgreatest start hstartBoundary (by omega)
        obtain ⟨width, rfl⟩ := Nat.exists_eq_add_of_le horder
        rw [hline] at hstopBoundary
        have hplace := hmost width ((Str.isCharBoundary_append before).mp hstopBoundary) (by omega)
        omega
      · rw [hline', ← Str.len_append]
        exact Str.isCharBoundary_len (before ++ window) last
    have hslice : Str.slice line start stop = some window :=
      Str.slice_eq_some.mpr ⟨before, last, hline', hstartEq.symm, by omega⟩
    have htotal : previewLineWindow line firstMatch =
        (if 0 < windowStart line firstMatch then previewCutMarker else []) ++ window ++
          (if Str.len window < Str.len (window ++ last) then previewCutMarker else []) := by
      rw [previewLineWindow_of_long firstMatch hlong, hrestEq, hwindowEq]
    have hzero : windowStart line firstMatch = 0 → start = 0 := by
      intro hzero
      have hle := hleast 0 (Str.isCharBoundary_zero line) (by omega)
      omega
    have hleft : (0 < windowStart line firstMatch) ↔ 0 < start := by omega
    have hright : (Str.len window < Str.len (window ++ last)) ↔ stop < Str.len line := by
      rw [Str.len_append]
      omega
    rw [previewLineWindow?, if_neg (Nat.not_le.mpr hlong), htotal]
    simp only [hstart, hstop, hslice, hleft, hright, Option.bind_eq_bind, Option.bind_some]
    rfl
  · rw [previewLineWindow?, if_pos hshort, previewLineWindow, if_pos hshort]
    rfl

/-- The preview of a long line keeps the match. -/
theorem preview_keeps_match (line : Str) :
    (∀ (lowercase : Lowercase) (query : Str), query ≠ [] →
      ((literalMatchRange lowercase line query).isSome ↔
        Str.contains (lowercase.foldLiteralCase line) query) ∧
      ∀ range, literalMatchRange lowercase line query = some range →
        range.1 < range.2 ∧ ∃ part, Str.slice line range.1 range.2 = some part ∧
          Str.contains (lowercase.foldLiteralCase part) query) ∧
    ∀ range : Nat × Nat, Str.isCharBoundary line range.1 → Str.isCharBoundary line range.2 →
      range.1 ≤ range.2 → range.2 - range.1 ≤ maxPreviewLineBytes →
      previewLineWindow? line (some range) = some line ∨
        ∃ start stop result, previewLineWindow? line (some range) = some result ∧
          IsWindow line start stop result ∧ start ≤ range.1 ∧ range.2 ≤ stop :=
  ⟨fun lowercase _ hquery => ⟨literalMatchRange_isSome lowercase hquery,
      fun _ hfound => literalMatchRange_spec lowercase hfound⟩,
    fun _ hstart hstop horder hfits => previewLineWindow?_covers hstart hstop horder hfits⟩

/-- In `xAé` the range of `aé` has its last two characters. -/
theorem preview_keeps_match_short :
    (∃ part, Str.slice ['x', 'A', '\u00e9'] 1 4 = some part ∧
      Str.contains (asciiFolding.foldLiteralCase part) ['a', '\u00e9']) ∧
    (previewLineWindow? ['x', 'A', '\u00e9'] (some (1, 4)) = some ['x', 'A', '\u00e9'] ∨
      ∃ start stop result,
        previewLineWindow? ['x', 'A', '\u00e9'] (some (1, 4)) = some result ∧
          IsWindow ['x', 'A', '\u00e9'] start stop result ∧ start ≤ 1 ∧ 4 ≤ stop) := by
  obtain ⟨hmatch, hwindow⟩ := preview_keeps_match ['x', 'A', '\u00e9']
  obtain ⟨-, hrange⟩ := hmatch asciiFolding ['a', '\u00e9'] (by decide)
  exact ⟨(hrange (1, 4) (by decide +kernel)).2,
    hwindow (1, 4) (by decide +kernel) (by decide +kernel) (by decide) (by decide)⟩

end Ivygrep.Native
