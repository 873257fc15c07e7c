import Ivygrep.Spec.ChunkWindows

/-!
# The range loop

The loop of `try_tree_sitter_chunk_source_with_budget` visits the sorted ranges in
order and threads the `covered` array through them. `flagsBefore` is that array
before each visit and `visitAt` is the visit itself. A line that is flagged at the
end was reached by a last visit that did not clear it (`exists_last_visit`); a
line that no visit keeps is then delegated from range to range until two ranges
delegate to each other (`exists_mutual_delegation`).
-/

namespace Ivygrep.Native

/-! ## What one visit does -/

namespace Visit

/-- The lines from the first absorbed doc line to the end of the range. -/
def Reaches (visit : Visit) (line : Nat) : Prop :=
  visit.start ≤ line ∧ line ≤ visit.safeEnd

/-- The line is in a window of the visit itself. -/
def Keeps (visit : Visit) (line : Nat) : Prop :=
  ∃ window ∈ visit.ownWindow :: visit.bodyWindows, window.1 ≤ line ∧ line ≤ window.2

/-- The visit clears the flag of the line for a nested declaration below it. -/
def Clears (visit : Visit) (line : Nat) : Prop :=
  ∃ nested ∈ visit.nested, nested.startLine ≤ line ∧ line < nested.definition

/-- The visit leaves the body of the other range to that range. -/
def DelegatesTo (visit other : Visit) : Prop :=
  visit.nested ≠ [] ∧ other.index ≠ visit.index ∧ visit.start < other.range.startLine ∧
    other.range.startLine ≤ visit.safeEnd ∧ other.range.endLine ≤ visit.safeEnd

end Visit

/-- Clearing the nested ranges clears exactly the lines above their declarations. -/
theorem clearNested_apply (nested : List NestedRange) (covered : Nat → Bool) (line : Nat) :
    clearNested covered nested line = true ↔
      covered line = true ∧
        ∀ range ∈ nested, ¬ (range.startLine ≤ line ∧ line < range.definition) := by
  induction nested generalizing covered with
  | nil => simp [clearNested]
  | cons range rest ih =>
    have hstep : clearNested covered (range :: rest) =
        clearNested (setFlags covered range.startLine range.definition false) rest := rfl
    rw [hstep, ih]
    simp only [setFlags, List.forall_mem_cons]
    constructor
    · rintro ⟨hflag, hrest⟩
      split at hflag
      · simp at hflag
      · rename_i hhead
        exact ⟨hflag, hhead, hrest⟩
    · rintro ⟨hcovered, hhead, hrest⟩
      exact ⟨by rw [if_neg hhead, hcovered], hrest⟩

section

variable {language : Str} {lines : List Str} {ranges : List CapturedRange}
  {covered : Nat → Bool} {range : CapturedRange} {index : Nat} {visit : Visit}

variable (language lines covered) in
/-- Absorption moves the start up, over at least line 1. -/
theorem absorbLeadingDocs_bounds (budget start : Nat) (h : 1 ≤ start) :
    1 ≤ absorbLeadingDocs language lines covered budget start ∧
      absorbLeadingDocs language lines covered budget start ≤ start := by
  induction budget generalizing start with
  | zero => exact ⟨h, Nat.le_refl _⟩
  | succ budget ih =>
    simp only [absorbLeadingDocs]
    split
    · split
      · exact ⟨h, Nat.le_refl _⟩
      · split
        · exact ⟨h, Nat.le_refl _⟩
        · have := ih (start - 1) (by omega)
          omega
    · exact ⟨h, Nat.le_refl _⟩

/-- Everything a visit fixes, in terms of its range. -/
theorem visitRange_spec (h : visitRange language lines ranges covered range index = some visit) :
    visit.index = index ∧ visit.range = range ∧ 1 ≤ range.startLine ∧
      range.startLine ≤ lines.length ∧ visit.safeEnd = min range.endLine lines.length ∧
      range.startLine ≤ visit.safeEnd ∧
      visit.start =
        absorbLeadingDocs language lines covered maxLeadingCommentLines range.startLine ∧
      visit.nested =
        nestedRanges language lines ranges index range.kind visit.start visit.safeEnd := by
  simp only [visitRange] at h
  split at h
  · simp at h
  · rename_i hstart
    split at h
    · simp at h
    · rename_i hend
      simp only [Option.some.injEq] at h
      subst h
      exact ⟨rfl, rfl, by omega, by omega, rfl, Nat.le_of_not_lt hend, rfl, rfl⟩

variable (language ranges covered index) in
/-- A range that starts inside the text and does not end before it starts is visited. -/
theorem visitRange_isSome (hstart : 1 ≤ range.startLine)
    (hlen : range.startLine ≤ lines.length) (hend : range.startLine ≤ range.endLine) :
    ∃ visit, visitRange language lines ranges covered range index = some visit := by
  have hsafe : ¬ min range.endLine lines.length < range.startLine := by omega
  simp only [visitRange, if_neg (show ¬ (range.startLine = 0 ∨ lines.length < range.startLine)
    by omega), if_neg hsafe]
  exact ⟨_, rfl⟩

/-- Membership in the nested ranges of a visit. -/
theorem mem_nestedRanges {kind : ChunkKind} {start safeEnd : Nat} {nested : NestedRange} :
    nested ∈ nestedRanges language lines ranges index kind start safeEnd ↔
      (isOversized lines start safeEnd = true ∧ (kind = .Class ∨ kind = .Module)) ∧
        ∃ other i, ranges[i]? = some other ∧ i ≠ index ∧ start < other.startLine ∧
          other.startLine ≤ safeEnd ∧ other.endLine ≤ safeEnd ∧
          nested =
            { startLine := max (leadingDocStart language lines other.startLine) (start + 1)
              definition := other.startLine, endLine := other.endLine } := by
  simp only [nestedRanges]
  split
  · rename_i hkind
    simp only [Bool.and_eq_true, Bool.or_eq_true, beq_iff_eq] at hkind
    simp only [hkind, and_self, true_and, List.mem_map, List.mem_filter, Prod.exists,
      List.mem_zipIdx_iff_getElem?, Bool.and_eq_true, bne_iff_ne, decide_eq_true_eq]
    constructor
    · rintro ⟨other, i, ⟨hmem, ⟨⟨hne, hstart⟩, hle⟩, hend⟩, rfl⟩
      exact ⟨other, i, hmem, hne, hstart, hle, hend, rfl⟩
    · rintro ⟨other, i, hmem, hne, hstart, hle, hend, rfl⟩
      exact ⟨other, i, ⟨hmem, ⟨⟨hne, hstart⟩, hle⟩, hend⟩, rfl⟩
  · rename_i hkind
    simp only [Bool.and_eq_true, Bool.or_eq_true, beq_iff_eq] at hkind
    simp [hkind]

/-- A visit flags the lines it reaches, less those it clears, and no others. -/
theorem flags_apply (h : visitRange language lines ranges covered range index = some visit)
    (line : Nat) :
    visit.flags covered line = true ↔
      (visit.Reaches line ∧ ¬ visit.Clears line) ∨
        (¬ visit.Reaches line ∧ covered line = true) := by
  obtain ⟨-, -, -, -, -, -, -, hnested⟩ := visitRange_spec h
  -- A nested range lies below the first line of the visit, and ends inside it.
  have hclears : visit.Clears line → visit.Reaches line := by
    rintro ⟨nested, hmem, hlow, hhigh⟩
    rw [hnested, mem_nestedRanges] at hmem
    obtain ⟨-, other, i, -, -, hstart, hle, -, rfl⟩ := hmem
    simp only [Visit.Reaches] at *
    omega
  rw [Visit.flags, clearNested_apply]
  have hnot : (∀ range ∈ visit.nested,
      ¬ (range.startLine ≤ line ∧ line < range.definition)) ↔ ¬ visit.Clears line := by
    simp [Visit.Clears]
  rw [hnot]
  by_cases hreach : visit.Reaches line
  · have hset : setFlags covered visit.start (visit.safeEnd + 1) true line = true := by
      simp only [setFlags]; exact if_pos ⟨hreach.1, Nat.lt_succ_of_le hreach.2⟩
    simp [hset, hreach]
  · have hset : setFlags covered visit.start (visit.safeEnd + 1) true line = covered line := by
      simp only [setFlags]
      exact if_neg fun h => hreach ⟨h.1, Nat.le_of_lt_succ h.2⟩
    have := mt hclears hreach
    simp [hset, hreach, this]

/-- The windows between nested ranges miss only lines of the nested ranges. -/
theorem parentWindows_cover {safeEnd line : Nat} (nested : List NestedRange) (parentStart : Nat)
    (hstart : parentStart ≤ line) (hend : line ≤ safeEnd)
    (h : ∀ window ∈ parentWindows safeEnd parentStart nested,
      ¬ (window.1 ≤ line ∧ line ≤ window.2)) :
    ∃ range ∈ nested, range.startLine ≤ line ∧ line ≤ range.endLine := by
  induction nested generalizing parentStart with
  | nil =>
    have hle : parentStart ≤ safeEnd := by omega
    simp only [parentWindows, if_pos hle, List.mem_singleton, forall_eq] at h
    exact absurd ⟨hstart, hend⟩ h
  | cons range rest ih =>
    simp only [parentWindows, List.mem_append] at h
    have hlow : range.startLine ≤ line := by
      by_cases hlt : parentStart < range.startLine
      · have := h (parentStart, range.startLine - 1) (.inl (by simp [hlt]))
        simp only at this
        omega
      · omega
    by_cases hhigh : line ≤ range.endLine
    · exact ⟨range, by simp, hlow, hhigh⟩
    · obtain ⟨found, hmem, hcover⟩ := ih (max parentStart (range.endLine + 1)) (by omega)
        fun window hwindow => h window (.inr hwindow)
      exact ⟨found, List.mem_cons_of_mem _ hmem, hcover⟩

/-- A line that a visit reaches and does not keep is in one of its nested ranges. -/
theorem Visit.exists_nested_of_not_keeps {line : Nat} (hreach : visit.Reaches line)
    (hkeeps : ¬ visit.Keeps line) :
    ∃ nested ∈ visit.nested, nested.startLine ≤ line ∧ line ≤ nested.endLine := by
  simp only [Visit.Keeps, List.mem_cons, not_exists, not_and] at hkeeps
  obtain ⟨hlow, hhigh⟩ := hreach
  by_cases hnested : visit.nested.isEmpty
  · have := hkeeps visit.ownWindow (.inl rfl)
    simp only [Visit.ownWindow, hnested, if_true] at this
    omega
  · have hown := hkeeps visit.ownWindow (.inl rfl)
    have hbody : visit.bodyWindows =
        parentWindows visit.safeEnd (visit.ownWindow.2 + 1) visit.nested := by
      simp [Visit.bodyWindows, hnested]
    have hfirst : visit.ownWindow.1 = visit.start := by
      simp [Visit.ownWindow, hnested]
    refine parentWindows_cover visit.nested (visit.ownWindow.2 + 1) (by omega) hhigh ?_
    intro window hwindow hmem
    exact hkeeps window (.inr (hbody ▸ hwindow)) hmem.1 hmem.2

/-- A visit starts inside the text. -/
theorem visit_start_pos (h : visitRange language lines ranges covered range index = some visit) :
    1 ≤ visit.start := by
  obtain ⟨-, -, hfirst, -, -, -, hstart, -⟩ := visitRange_spec h
  rw [hstart]
  exact (absorbLeadingDocs_bounds _ _ _ maxLeadingCommentLines range.startLine hfirst).1

/-- The windows between nested ranges start at `parentStart` or later. -/
theorem parentWindows_lower {safeEnd : Nat} (nested : List NestedRange) (parentStart : Nat) :
    ∀ window ∈ parentWindows safeEnd parentStart nested, parentStart ≤ window.1 := by
  induction nested generalizing parentStart with
  | nil =>
    intro window hwindow
    simp only [parentWindows] at hwindow
    split at hwindow <;> simp_all
  | cons range rest ih =>
    intro window hwindow
    rcases List.mem_append.mp hwindow with hwindow | hwindow
    · split at hwindow <;> simp_all
    · have := ih (max parentStart (range.endLine + 1)) window hwindow
      omega

/-- Every window of a visit starts inside the text. -/
theorem visit_window_pos (hpos : 1 ≤ visit.start) :
    ∀ window ∈ visit.ownWindow :: visit.bodyWindows, 1 ≤ window.1 := by
  intro window hwindow
  rcases List.mem_cons.mp hwindow with rfl | hwindow
  · simp only [Visit.ownWindow]
    split <;> exact hpos
  · simp only [Visit.bodyWindows] at hwindow
    split at hwindow
    · simp at hwindow
    · have := parentWindows_lower _ _ window hwindow
      omega

/-- A visit keeps its own first line. -/
theorem Visit.keeps_start (h : visitRange language lines ranges covered range index = some visit) :
    visit.Keeps visit.start := by
  obtain ⟨-, -, hfirst, -, -, hle, hstart, -⟩ := visitRange_spec h
  have hbounds := absorbLeadingDocs_bounds language lines covered
    maxLeadingCommentLines range.startLine hfirst
  refine ⟨visit.ownWindow, by simp, ?_⟩
  simp only [Visit.ownWindow, maxParentOverviewLines]
  split <;> dsimp only <;> omega

/-- A start that absorption moved is on a doc line. -/
theorem isLeadingDocLine_of_absorbLeadingDocs_lt (budget start : Nat)
    (h : absorbLeadingDocs language lines covered budget start < start) :
    isLeadingDocLine
      (Str.trim (lineAt lines (absorbLeadingDocs language lines covered budget start)))
      language = true := by
  induction budget generalizing start with
  | zero => exact absurd h (Nat.lt_irrefl _)
  | succ budget ih =>
    simp only [absorbLeadingDocs] at h ⊢
    split at h
    · split at h
      · omega
      · split at h
        · omega
        · rename_i hlt hcovered hdoc
          rw [if_pos hlt, if_neg hcovered, if_neg hdoc]
          simp only [Bool.or_eq_true, Bool.not_eq_true', not_or, Bool.not_eq_false] at hdoc
          -- Either a line further up was absorbed, or the line above is the last one.
          rcases Nat.lt_or_ge (absorbLeadingDocs language lines covered budget (start - 1))
            (start - 1) with hmore | hdone
          · exact ih (start - 1) hmore
          · have hbounds := absorbLeadingDocs_bounds language lines covered
              budget (start - 1) (by omega)
            rw [Nat.le_antisymm hbounds.2 hdone]
            exact hdoc.2
    · omega

/-- Absorption stays put unless the line above is an uncovered doc line. -/
theorem absorbLeadingDocs_eq_self {budget start : Nat} :
    absorbLeadingDocs language lines covered (budget + 1) start = start ↔
      ¬ (1 < start ∧ covered (start - 1) = false ∧
        Str.trim (lineAt lines (start - 1)) ≠ [] ∧
        isLeadingDocLine (Str.trim (lineAt lines (start - 1))) language = true) := by
  simp only [absorbLeadingDocs]
  split
  · rename_i hlt
    have hmoved := (absorbLeadingDocs_bounds language lines covered
      budget (start - 1) (by omega)).2
    split
    · rename_i hcovered
      simp [hcovered]
    · rename_i hcovered
      split
      · rename_i hdoc
        simp only [Bool.or_eq_true, List.isEmpty_iff, Bool.not_eq_true'] at hdoc
        simp only [true_iff, not_and, ne_eq]
        intro _ _ hne htrue
        rcases hdoc with hdoc | hdoc
        · exact hne hdoc
        · simp [hdoc] at htrue
      · rename_i hdoc
        simp only [Bool.or_eq_true, List.isEmpty_iff, Bool.not_eq_true', not_or,
          Bool.not_eq_false] at hdoc
        have hfalse : covered (start - 1) = false := by simpa using hcovered
        have hdoc' : 1 < start ∧ covered (start - 1) = false ∧
            Str.trim (lineAt lines (start - 1)) ≠ [] ∧
            isLeadingDocLine (Str.trim (lineAt lines (start - 1))) language = true :=
          ⟨hlt, hfalse, hdoc⟩
        exact iff_of_false (by omega) (not_not_intro hdoc')
  · rename_i hlt
    simp [hlt]

end

/-! ## The trace of the loop -/

section

variable (language : Str) (lines : List Str) (ranges : List CapturedRange)

/-- The `covered` array before range `k` is visited. -/
def flagsBefore : Nat → Nat → Bool
  | 0 => fun _ => false
  | k + 1 =>
    match ranges[k]?.bind fun range =>
        visitRange language lines ranges (flagsBefore k) range k with
    | some visit => visit.flags (flagsBefore k)
    | none => flagsBefore k

/-- The visit of range `k`, if the loop does not skip it. -/
def visitAt (k : Nat) : Option Visit :=
  ranges[k]?.bind fun range =>
    visitRange language lines ranges (flagsBefore language lines ranges k) range k

/-- The visits of the loop, in order. -/
def visits : List Visit :=
  (List.range ranges.length).filterMap (visitAt language lines ranges)

end

section

variable {language : Str} {lines : List Str} {ranges : List CapturedRange}

theorem visitAt_eq_some {k : Nat} {visit : Visit} :
    visitAt language lines ranges k = some visit ↔
      ∃ range, ranges[k]? = some range ∧
        visitRange language lines ranges (flagsBefore language lines ranges k) range k =
          some visit := by
  simp [visitAt, Option.bind_eq_some_iff]

theorem flagsBefore_succ_some {k : Nat} {visit : Visit}
    (h : visitAt language lines ranges k = some visit) :
    flagsBefore language lines ranges (k + 1) =
      visit.flags (flagsBefore language lines ranges k) := by
  rw [visitAt] at h
  rw [flagsBefore, h]

theorem flagsBefore_succ_none {k : Nat} (h : visitAt language lines ranges k = none) :
    flagsBefore language lines ranges (k + 1) = flagsBefore language lines ranges k := by
  rw [visitAt] at h
  rw [flagsBefore, h]

theorem mem_visits {visit : Visit} :
    visit ∈ visits language lines ranges ↔
      ∃ k, visitAt language lines ranges k = some visit := by
  simp only [visits, List.mem_filterMap, List.mem_range]
  constructor
  · rintro ⟨k, -, h⟩
    exact ⟨k, h⟩
  · rintro ⟨k, h⟩
    obtain ⟨range, hrange, -⟩ := visitAt_eq_some.mp h
    exact ⟨k, (List.getElem?_eq_some_iff.mp hrange).1, h⟩

/-- A flagged line was reached by a visit that did not clear it, and by no later one. -/
theorem exists_last_visit {line : Nat} (k : Nat)
    (h : flagsBefore language lines ranges k line = true) :
    ∃ i visit, i < k ∧ visitAt language lines ranges i = some visit ∧ visit.Reaches line ∧
      ¬ visit.Clears line ∧
      ∀ j other, i < j → j < k → visitAt language lines ranges j = some other →
        ¬ other.Reaches line := by
  induction k with
  | zero => simp [flagsBefore] at h
  | succ k ih =>
    cases hvisit : visitAt language lines ranges k with
    | none =>
      rw [flagsBefore_succ_none hvisit] at h
      obtain ⟨i, visit, hi, hrest⟩ := ih h
      refine ⟨i, visit, by omega, hrest.1, hrest.2.1, hrest.2.2.1, fun j other hij hjk hj => ?_⟩
      rcases Nat.lt_succ_iff_lt_or_eq.mp hjk with hlt | rfl
      · exact hrest.2.2.2 j other hij hlt hj
      · simp [hvisit] at hj
    | some current =>
      obtain ⟨range, -, hcurrent⟩ := visitAt_eq_some.mp hvisit
      rw [flagsBefore_succ_some hvisit, flags_apply hcurrent] at h
      rcases h with ⟨hreach, hclear⟩ | ⟨hreach, hflag⟩
      · exact ⟨k, current, by omega, hvisit, hreach, hclear, fun j _ _ _ _ => by omega⟩
      · obtain ⟨i, visit, hi, hrest⟩ := ih hflag
        refine ⟨i, visit, by omega, hrest.1, hrest.2.1, hrest.2.2.1,
          fun j other hij hjk hj => ?_⟩
        rcases Nat.lt_succ_iff_lt_or_eq.mp hjk with hlt | rfl
        · exact hrest.2.2.2 j other hij hlt hj
        · simp only [hvisit, Option.some.injEq] at hj
          exact hj ▸ hreach

/-! ## Delegation -/

/-- What a delegation says about the range it delegates to. -/
theorem visitAt_of_nested {k : Nat} {visit : Visit} {nested : NestedRange}
    (hbounds : ∀ range ∈ ranges, range.startLine ≤ range.endLine)
    (hvisit : visitAt language lines ranges k = some visit) (hmem : nested ∈ visit.nested) :
    ∃ j other, visitAt language lines ranges j = some other ∧ other.index = j ∧
      visit.DelegatesTo other ∧ other.safeEnd = other.range.endLine ∧
      nested =
        { startLine := max (leadingDocStart language lines other.range.startLine)
            (visit.start + 1)
          definition := other.range.startLine, endLine := other.range.endLine } := by
  obtain ⟨range, -, hrange⟩ := visitAt_eq_some.mp hvisit
  obtain ⟨hindex, -, hfirst, -, hsafe, -, hstart, hnested⟩ := visitRange_spec hrange
  have hne := List.ne_nil_of_mem hmem
  rw [hnested, mem_nestedRanges] at hmem
  obtain ⟨-, inner, j, hj, hjk, hlow, hle, hend, rfl⟩ := hmem
  obtain ⟨other, hother⟩ := visitRange_isSome language ranges
    (flagsBefore language lines ranges j) j (show 1 ≤ inner.startLine by omega)
    (show inner.startLine ≤ lines.length by omega) (hbounds inner (List.mem_of_getElem? hj))
  obtain ⟨hindex', hrange', -, -, hsafe', -, -, -⟩ := visitRange_spec hother
  subst hrange'
  exact ⟨j, other, visitAt_eq_some.mpr ⟨_, hj, hother⟩, hindex',
    ⟨hne, by omega, hlow, hle, hend⟩, by omega, rfl⟩

/-- Ranges that start on the same line: if the first absorbs no doc line, neither does
    the second, because its flag of the line above stays as it was. -/
theorem start_eq_of_same_startLine {p m : Nat} {first second : Visit}
    (hsorted : ranges.Pairwise fun left right => left.startLine ≤ right.startLine)
    (hlt : p < m) (hfirst : visitAt language lines ranges p = some first)
    (hsecond : visitAt language lines ranges m = some second)
    (hsame : first.range.startLine = second.range.startLine)
    (hstart : first.start = first.range.startLine) :
    second.start = second.range.startLine := by
  obtain ⟨rp, hrp, hvp⟩ := visitAt_eq_some.mp hfirst
  obtain ⟨rm, hrm, hvm⟩ := visitAt_eq_some.mp hsecond
  obtain ⟨-, hp, -, -, -, -, hpstart, -⟩ := visitRange_spec hvp
  obtain ⟨-, hm, -, -, -, -, hmstart, -⟩ := visitRange_spec hvm
  rw [hp] at hsame hstart
  rw [hm] at hsame ⊢
  rw [hpstart, maxLeadingCommentLines, absorbLeadingDocs_eq_self] at hstart
  rw [hmstart, maxLeadingCommentLines, absorbLeadingDocs_eq_self]
  rintro ⟨hgt, hflag, hdoc⟩
  rw [← hsame] at hgt hflag hdoc
  -- The flag was set at the first visit, and no visit in between reaches the line.
  have hkept : ∀ k, p ≤ k → k ≤ m →
      flagsBefore language lines ranges k (rp.startLine - 1) = true := by
    intro k hpk hkm
    induction k, hpk using Nat.le_induction with
    | base =>
      by_contra hfalse
      exact hstart ⟨hgt, by simpa using hfalse, hdoc⟩
    | succ k hpk ih =>
      have hbefore := ih (by omega)
      cases hvisit : visitAt language lines ranges k with
      | none => rwa [flagsBefore_succ_none hvisit]
      | some current =>
        obtain ⟨rk, hrk, hvk⟩ := visitAt_eq_some.mp hvisit
        obtain ⟨-, hk, -, -, -, -, hkstart, -⟩ := visitRange_spec hvk
        have hsk : rk.startLine = rp.startLine := by
          have hmono : ∀ {i j : Nat} {ri rj : CapturedRange}, i ≤ j → ranges[i]? = some ri →
              ranges[j]? = some rj → ri.startLine ≤ rj.startLine := by
            intro i j ri rj hij hi hj
            rcases Nat.lt_or_eq_of_le hij with hij | rfl
            · obtain ⟨hi', rfl⟩ := List.getElem?_eq_some_iff.mp hi
              obtain ⟨hj', rfl⟩ := List.getElem?_eq_some_iff.mp hj
              exact List.pairwise_iff_getElem.mp hsorted i j hi' hj' hij
            · simp only [hi, Option.some.injEq] at hj
              exact hj ▸ Nat.le_refl _
          have h₁ := hmono hpk hrp hrk
          have h₂ := hmono (Nat.le_of_succ_le hkm) hrk hrm
          omega
        have hcurrent : current.start = rp.startLine := by
          rw [hkstart, maxLeadingCommentLines, ← hsk, absorbLeadingDocs_eq_self, hsk]
          rintro ⟨-, hfalse, -⟩
          simp [hbefore] at hfalse
        rw [flagsBefore_succ_some hvisit, flags_apply hvk]
        refine .inr ⟨?_, hbefore⟩
        rintro ⟨hlow, -⟩
        omega
  simp [hkept m (Nat.le_of_lt hlt) (Nat.le_refl m)] at hflag

/-- A flagged line that no visit keeps is in the reach of two visits that delegate to
    each other. -/
theorem exists_mutual_delegation {line : Nat}
    (hsorted : ranges.Pairwise fun left right => left.startLine ≤ right.startLine)
    (hbounds : ∀ range ∈ ranges, range.startLine ≤ range.endLine)
    (hflag : flagsBefore language lines ranges ranges.length line = true)
    (hkeeps : ∀ visit ∈ visits language lines ranges, ¬ visit.Keeps line) :
    ∃ left ∈ visits language lines ranges, ∃ right ∈ visits language lines ranges,
      left.DelegatesTo right ∧ right.DelegatesTo left ∧ left.Reaches line ∧
        right.Reaches line := by
  obtain ⟨i, last, -, hlast, hreach, hclear, -⟩ := exists_last_visit ranges.length hflag
  obtain ⟨rlast, -, hvlast⟩ := visitAt_eq_some.mp hlast
  obtain ⟨-, -, -, -, -, -, -, hlastNested⟩ := visitRange_spec hvlast
  have hdrop : ∀ {k visit}, visitAt language lines ranges k = some visit → visit.Reaches line →
      ∃ nested ∈ visit.nested, nested.startLine ≤ line ∧ line ≤ nested.endLine :=
    fun hvisit hreach => Visit.exists_nested_of_not_keeps hreach
      (hkeeps _ (mem_visits.mpr ⟨_, hvisit⟩))
  have hinside : last.start < line := by
    refine Nat.lt_of_le_of_ne hreach.1 fun heq => ?_
    exact hkeeps last (mem_visits.mpr ⟨i, hlast⟩) (heq ▸ Visit.keeps_start hvlast)
  -- The visits that the line is handed on to, starting from the last one.
  let Handed (k : Nat) (visit : Visit) : Prop :=
    visitAt language lines ranges k = some visit ∧ visit.Reaches line ∧
      (k = i ∨ visit.range.startLine ≤ line ∧ visit.range.endLine ≤ last.safeEnd)
  have hnext : ∀ k visit, Handed k visit →
      ∃ j other, Handed j other ∧ visit.DelegatesTo other := by
    rintro k visit ⟨hvisit, hreaches, hcase⟩
    obtain ⟨nested, hmem, hlow, hhigh⟩ := hdrop hvisit hreaches
    obtain ⟨j, other, hother, hindex, hdelegates, hsafe, rfl⟩ :=
      visitAt_of_nested hbounds hvisit hmem
    obtain ⟨range, hrange, hvother⟩ := visitAt_eq_some.mp hother
    obtain ⟨-, hotherRange, hfirst, -, -, -, hotherStart, -⟩ := visitRange_spec hvother
    obtain ⟨rvisit, -, hvvisit⟩ := visitAt_eq_some.mp hvisit
    obtain ⟨-, hvisitRange, -, -, hvisitSafe, -, -, -⟩ := visitRange_spec hvvisit
    have hmoved := (absorbLeadingDocs_bounds language lines (flagsBefore language lines ranges j)
      maxLeadingCommentLines
      range.startLine hfirst).2
    dsimp only at hlow hhigh
    refine ⟨j, other, ?_, hdelegates⟩
    by_cases hj : j = i
    · subst hj
      rw [hlast] at hother
      obtain rfl := Option.some.inj hother
      exact ⟨hlast, hreach, .inl rfl⟩
    have hends : other.range.endLine ≤ last.safeEnd := by
      rcases hcase with rfl | ⟨-, hend⟩
      · rw [hlast] at hvisit
        obtain rfl := Option.some.inj hvisit
        exact hdelegates.2.2.2.2
      · have := hdelegates.2.2.2.2
        rw [hvisitRange] at hend
        omega
    by_cases hline : other.range.startLine ≤ line
    · exact ⟨hother, ⟨by rw [hotherStart, ← hotherRange] at *; omega, by omega⟩,
        .inr ⟨hline, hends⟩⟩
    · -- A doc line of a nested range: the last visit would have cleared it.
      refine absurd ?_ hclear
      obtain ⟨anchor, hanchor, -⟩ := hdrop hlast hreach
      rw [hlastNested, mem_nestedRanges] at hanchor
      have hord := hbounds range (List.mem_of_getElem? hrange)
      rw [hotherRange] at hline hends hlow
      refine ⟨⟨max (leadingDocStart language lines range.startLine) (last.start + 1),
        range.startLine, range.endLine⟩, ?_, by dsimp only; omega, Nat.lt_of_not_le hline⟩
      rw [hlastNested, mem_nestedRanges]
      exact ⟨hanchor.1, range, j, hrange, hj, by omega, by omega, hends, rfl⟩
  -- Take the handed visit with the smallest end line, the latest one of these.
  obtain ⟨⟨m, visit⟩, hm, hmin⟩ := WellFounded.has_min
    (InvImage.wf (fun entry : Nat × Visit =>
      toLex (entry.2.range.endLine, ranges.length - entry.1)) wellFounded_lt)
    {entry | Handed entry.1 entry.2} ⟨(i, last), hlast, hreach, .inl rfl⟩
  change Handed m visit at hm
  obtain ⟨p, other, hp, hdelegates⟩ := hnext m visit hm
  have hnotlt := hmin (p, other) hp
  simp only [InvImage, Prod.Lex.toLex_lt_toLex, not_or, not_and] at hnotlt
  have hdelegated := hdelegates.2.2.2.2
  obtain ⟨rm, hrm, hvm⟩ := visitAt_eq_some.mp hm.1
  obtain ⟨rp, hrp, hvp⟩ := visitAt_eq_some.mp hp.1
  obtain ⟨hmindex, rfl, -, -, hmsafe, hmle, hmstart, -⟩ := visitRange_spec hvm
  obtain ⟨hpindex, rfl, hpfirst, -, hpsafe, hple, hpstart, -⟩ := visitRange_spec hvp
  have hmoved := (absorbLeadingDocs_bounds language lines (flagsBefore language lines ranges p)
    maxLeadingCommentLines
    other.range.startLine hpfirst).2
  have hmlen := (List.getElem?_eq_some_iff.mp hrm).1
  have hplen := (List.getElem?_eq_some_iff.mp hrp).1
  have ⟨_, hindex, hlow, hmid, hhigh⟩ := hdelegates
  have hends : other.range.endLine = visit.range.endLine := by omega
  have hlt : p < m := by
    have := hnotlt.2 hends
    omega
  have hstarts : other.range.startLine ≤ visit.range.startLine := by
    obtain ⟨hp', hpget⟩ := List.getElem?_eq_some_iff.mp hrp
    obtain ⟨hm', hmget⟩ := List.getElem?_eq_some_iff.mp hrm
    rw [← hpget, ← hmget]
    exact List.pairwise_iff_getElem.mp hsorted p m hp' hm' hlt
  have hback : other.start < visit.range.startLine := by
    refine Nat.lt_of_le_of_ne (by omega) fun heq => ?_
    -- Both start on the same line, and the first absorbed no doc line.
    have hsame := start_eq_of_same_startLine hsorted hlt hp.1 hm.1 (by omega) (by omega)
    omega
  obtain ⟨nested, hnested, -⟩ := hdrop hp.1 hp.2.1
  refine ⟨visit, mem_visits.mpr ⟨m, hm.1⟩, other, mem_visits.mpr ⟨p, hp.1⟩, hdelegates, ?_,
    hm.2.1, hp.2.1⟩
  exact ⟨List.ne_nil_of_mem hnested, by omega, hback, by omega, by omega⟩

end

end Ivygrep.Native
