import Mathlib

/-!
# The Knuth-Morris-Pratt automaton

The automaton reads a text once and knows at each point how much of the pattern the text ends
with. Its table says, for each part of the pattern, how much of the pattern that part ends with.
-/

namespace ForStd.Kmp

variable {α : Type*} [DecidableEq α]

/-- The loop over shorter and shorter beginnings of the pattern, for at most `fuel` rounds. -/
def fallBack (pattern : List α) (table : List Nat) (a : α) : Nat → Nat → Nat
  | 0, matched => matched
  | fuel + 1, matched =>
    if 0 < matched ∧ pattern[matched]? ≠ some a then
      fallBack pattern table a fuel (table.getD (matched - 1) 0)
    else matched

/-- One more letter. -/
def advance (pattern : List α) (table : List Nat) (matched : Nat) (a : α) : Nat :=
  let matched := fallBack pattern table a matched matched
  if pattern[matched]? = some a then matched + 1 else matched

/-- The table of a pattern: each entry is one step of the automaton from the entry before. -/
def buildTable : List α → List Nat
  | [] => []
  | first :: rest =>
    rest.foldl (fun table a => table ++ [advance (first :: rest) table (table.getLastD 0) a]) [0]

/-! ## What the state means -/

/-- The longest beginning of the pattern that the text ends with. -/
structure IsLongest (pattern text : List α) (matched : Nat) : Prop where
  le : matched ≤ pattern.length
  suffix : pattern.take matched <:+ text
  longest : ∀ other ≤ pattern.length, pattern.take other <:+ text → other ≤ matched

/-- Each entry of the table is about what follows the first letter of a part of the pattern. -/
def TableOf (pattern : List α) (table : List Nat) : Prop :=
  ∀ i (h : i < table.length), IsLongest pattern (pattern.tail.take i) table[i]

omit [DecidableEq α] in
theorem isLongest_nil {pattern : List α} : IsLongest pattern [] 0 := by
  refine ⟨Nat.zero_le _, List.nil_suffix, fun other hle hsuffix => ?_⟩
  have hlength := hsuffix.length_le
  rw [List.length_take, List.length_nil] at hlength
  omega

omit [DecidableEq α] in
/-- One more letter of the text needs one more letter of the pattern. -/
theorem take_succ_suffix_iff {pattern text : List α} {a : α} {matched : Nat}
    (h : matched < pattern.length) : pattern.take (matched + 1) <:+ text ++ [a] ↔
      pattern.take matched <:+ text ∧ pattern[matched]? = some a := by
  rw [List.take_add_one, List.getElem?_eq_getElem h, Option.toList_some, List.suffix_concat_iff]
  constructor
  · rintro (hnil | ⟨before, heq, hsuffix⟩)
    · exact absurd hnil (List.append_ne_nil_of_right_ne_nil _ (List.cons_ne_nil _ _))
    · obtain ⟨rfl, hlast⟩ := List.append_inj' heq rfl
      exact ⟨hsuffix, by rw [List.singleton_inj.mp hlast]⟩
  · rintro ⟨hsuffix, heq⟩
    rw [Option.some.inj heq]
    exact .inr ⟨_, rfl, hsuffix⟩

section

variable {pattern text : List α} {table : List Nat} {a : α} {matched : Nat}

/-- A shorter beginning of the pattern that the text ends with is among what the table has. -/
theorem le_table_of_suffix (htable : TableOf pattern table) (hmatched : 0 < matched)
    (hle : matched ≤ table.length) (hsuffix : pattern.take matched <:+ text) {other : Nat}
    (hother : other < matched) (hlt : matched ≤ pattern.length)
    (hothersuffix : pattern.take other <:+ text) : other ≤ table.getD (matched - 1) 0 := by
  have hentry := htable (matched - 1) (by omega)
  rw [List.getD_eq_getElem _ _ (by omega)]
  apply hentry.longest other (by omega)
  have hinside : pattern.take other <:+ pattern.take matched := by
    apply List.suffix_of_suffix_length_le hothersuffix hsuffix
    rw [List.length_take, List.length_take]
    omega
  cases hpattern : pattern with
  | nil =>
    rw [List.take_nil]
    exact List.nil_suffix
  | cons first rest =>
    rw [hpattern] at hinside
    obtain ⟨matched, rfl⟩ := Nat.exists_eq_add_of_le' hmatched
    rw [List.take_succ_cons] at hinside
    rcases List.suffix_cons_iff.mp hinside with heq | hrest
    · have hlength := congrArg List.length heq
      rw [hpattern] at hlt
      rw [List.length_cons] at hlt
      rw [List.length_take, List.length_cons, List.length_cons, List.length_take] at hlength
      omega
    · exact hrest

/-- The loop ends at the longest beginning that the letter continues, or at nothing. -/
theorem fallBack_spec (htable : TableOf pattern table) (fuel : Nat) (hfuel : matched ≤ fuel)
    (hle : matched ≤ table.length) (hlt : matched < pattern.length)
    (hsuffix : pattern.take matched <:+ text)
    (hlongest : ∀ other < pattern.length, pattern.take other <:+ text →
      pattern[other]? = some a → other ≤ matched) :
    let result := fallBack pattern table a fuel matched
    result < pattern.length ∧ pattern.take result <:+ text ∧
      (∀ other < pattern.length, pattern.take other <:+ text →
        pattern[other]? = some a → other ≤ result) ∧
      (result = 0 ∨ pattern[result]? = some a) := by
  induction fuel generalizing matched with
  | zero => exact ⟨hlt, hsuffix, hlongest, .inl (Nat.le_zero.mp hfuel)⟩
  | succ fuel ih =>
    unfold fallBack
    split
    · next hnot =>
      have hentry := htable (matched - 1) (by omega)
      have hget : table.getD (matched - 1) 0 = table[matched - 1] :=
        List.getD_eq_getElem _ _ (by omega)
      have hshort : table.getD (matched - 1) 0 ≤ matched - 1 := by
        have hlength := hentry.suffix.length_le
        have hbound := hentry.le
        rw [List.length_take, List.length_take] at hlength
        rw [hget]
        omega
      apply ih (by omega) (by omega) (by omega)
      · -- The entry is inside the part of the pattern, which the text ends with.
        rw [hget]
        apply hentry.suffix.trans (List.IsSuffix.trans _ hsuffix)
        rw [show matched = matched - 1 + 1 by omega]
        cases pattern with
        | nil => exact absurd hlt (Nat.not_lt_zero _)
        | cons first rest => exact List.suffix_cons _ _
      · intro other hother hothersuffix hcontinues
        have hold := hlongest other hother hothersuffix hcontinues
        apply le_table_of_suffix htable hnot.1 hle hsuffix _ (Nat.le_of_lt hlt) hothersuffix
        rcases Nat.lt_or_eq_of_le hold with hless | rfl
        · exact hless
        · exact absurd hcontinues hnot.2
    · next hend =>
      refine ⟨hlt, hsuffix, hlongest, ?_⟩
      rw [not_and_or, not_not, Nat.not_lt, Nat.le_zero] at hend
      exact hend

/-- One step of the automaton keeps the meaning of its state. -/
theorem advance_spec (htable : TableOf pattern table) (hle : matched ≤ table.length)
    (hlt : matched < pattern.length) (h : IsLongest pattern text matched) :
    IsLongest pattern (text ++ [a]) (advance pattern table matched a) := by
  obtain ⟨hresult, hsuffix, hlongest, hend⟩ := fallBack_spec (a := a) htable matched
    (Nat.le_refl _) hle hlt h.suffix fun other hother hsuffix _ =>
      h.longest other (Nat.le_of_lt hother) hsuffix
  have hbound : ∀ other ≤ pattern.length, pattern.take other <:+ text ++ [a] → other ≠ 0 →
      ∃ shorter, other = shorter + 1 ∧ pattern[shorter]? = some a ∧
        shorter ≤ fallBack pattern table a matched matched := by
    intro other hother hothersuffix hne
    obtain ⟨shorter, rfl⟩ := Nat.exists_eq_succ_of_ne_zero hne
    obtain ⟨hshorter, hcontinues⟩ := (take_succ_suffix_iff hother).mp hothersuffix
    exact ⟨shorter, rfl, hcontinues, hlongest shorter hother hshorter hcontinues⟩
  unfold advance
  dsimp only
  split
  · next hcontinues =>
    refine ⟨hresult, (take_succ_suffix_iff hresult).mpr ⟨hsuffix, hcontinues⟩, ?_⟩
    intro other hother hothersuffix
    by_cases hne : other = 0
    · omega
    · obtain ⟨shorter, rfl, -, hshorter⟩ := hbound other hother hothersuffix hne
      omega
  · next hstops =>
    have hzero := hend.resolve_right hstops
    rw [hzero] at hbound hstops ⊢
    refine ⟨Nat.zero_le _, List.nil_suffix, ?_⟩
    intro other hother hothersuffix
    by_contra hne
    obtain ⟨shorter, rfl, hcontinues, hshorter⟩ :=
      hbound other hother hothersuffix (by omega)
    rw [Nat.le_zero.mp hshorter] at hcontinues
    exact hstops hcontinues

end

/-! ## The table -/

omit [DecidableEq α] in
theorem IsLongest.le_length {pattern text : List α} {matched : Nat}
    (h : IsLongest pattern text matched) : matched ≤ text.length := by
  have hlength := h.suffix.length_le
  rw [List.length_take, Nat.min_eq_left h.le] at hlength
  exact hlength

/-- One more letter of the pattern gives one more entry. -/
theorem TableOf.snoc {first : α} {before after : List α} {a : α} {table : List Nat}
    (htable : TableOf (first :: (before ++ a :: after)) table)
    (hlength : table.length = before.length + 1) :
    TableOf (first :: (before ++ a :: after))
      (table ++ [advance (first :: (before ++ a :: after)) table (table.getLastD 0) a]) := by
  have hinside : before.length < table.length := by omega
  have hlast : table.getLastD 0 = table[before.length] := by
    rw [List.getLastD_eq_getLast?, List.getLast?_eq_getElem?, List.getElem?_eq_getElem (by omega)]
    simp only [hlength, Nat.add_sub_cancel, Option.getD_some]
  have hbefore := htable before.length hinside
  rw [List.tail_cons, List.take_left, ← hlast] at hbefore
  have hle := hbefore.le_length
  intro i hi
  rw [List.getElem_append]
  split
  · next hold => exact htable i hold
  · next hnew =>
    rw [List.length_append, List.length_singleton] at hi
    have hend : i = before.length + 1 := by omega
    subst hend
    rw [List.getElem_singleton, List.tail_cons, List.take_length_add_append, List.take_succ_cons,
      List.take_zero]
    apply advance_spec htable (by omega) _ hbefore
    rw [List.length_cons, List.length_append]
    omega

theorem foldl_table {first : α} {before after : List α} {table : List Nat}
    (htable : TableOf (first :: (before ++ after)) table)
    (hlength : table.length = before.length + 1) :
    let result := after.foldl (fun table a =>
      table ++ [advance (first :: (before ++ after)) table (table.getLastD 0) a]) table
    TableOf (first :: (before ++ after)) result ∧
      result.length = before.length + after.length + 1 := by
  generalize hpattern : first :: (before ++ after) = pattern
  rw [hpattern] at htable
  induction after generalizing before table with
  | nil => exact ⟨htable, hlength⟩
  | cons a after ih =>
    subst hpattern
    have hsnoc := htable.snoc hlength
    have hnext : (table ++ [advance (first :: (before ++ a :: after)) table
        (table.getLastD 0) a]).length = (before ++ [a]).length + 1 := by
      rw [List.length_append, hlength, List.length_append]
      rfl
    have hmore := ih hnext hsnoc (by rw [List.append_assoc]; rfl)
    rw [List.length_append, Nat.add_assoc before.length, Nat.add_comm [a].length] at hmore
    exact hmore

theorem buildTable_spec (pattern : List α) :
    TableOf pattern (buildTable pattern) ∧ (buildTable pattern).length = pattern.length := by
  cases pattern with
  | nil => exact ⟨fun i hi => absurd hi (Nat.not_lt_zero i), rfl⟩
  | cons first rest =>
    have hfirst : TableOf (first :: ([] ++ rest)) [0] := by
      intro i hi
      rw [List.length_singleton, Nat.lt_one_iff] at hi
      subst hi
      exact isLongest_nil
    obtain ⟨htable, hlength⟩ := foldl_table hfirst rfl
    rw [List.length_nil, Nat.zero_add] at hlength
    exact ⟨htable, hlength⟩

/-! ## Searching -/

/-- The state of a search that stops at the first place where the pattern ends. -/
structure Searched (pattern text : List α) (matched : Nat) : Prop where
  le : matched ≤ pattern.length
  found : matched = pattern.length ↔ pattern <:+: text
  longest : matched < pattern.length → IsLongest pattern text matched

variable {pattern text : List α} {a : α} {matched : Nat}

omit [DecidableEq α] in
theorem searched_nil : Searched pattern [] 0 := by
  refine ⟨Nat.zero_le _, ?_, fun _ => isLongest_nil⟩
  rw [List.infix_nil, eq_comm, List.length_eq_zero_iff]

omit [DecidableEq α] in
/-- A search that has stopped takes any further text. -/
theorem Searched.append_of_found (h : Searched pattern text matched)
    (hfound : matched = pattern.length) (more : List α) :
    Searched pattern (text ++ more) matched := by
  refine ⟨h.le, iff_of_true hfound ?_, fun hlt => absurd hfound (Nat.ne_of_lt hlt)⟩
  exact (h.found.mp hfound).trans (List.prefix_append text more).isInfix

/-- A search that has not stopped takes one more letter. -/
theorem Searched.advance (h : Searched pattern text matched) (hfound : matched ≠ pattern.length) :
    Searched pattern (text ++ [a]) (advance pattern (buildTable pattern) matched a) := by
  have hlt := Nat.lt_of_le_of_ne h.le hfound
  have hnew := advance_spec (a := a) (buildTable_spec pattern).1
    ((buildTable_spec pattern).2.symm ▸ Nat.le_of_lt hlt) hlt (h.longest hlt)
  refine ⟨hnew.le, ?_, fun _ => hnew⟩
  rw [List.infix_concat_iff, or_iff_left (fun hinfix => hfound (h.found.mpr hinfix))]
  constructor
  · intro heq
    have hsuffix := hnew.suffix
    rw [heq, List.take_length] at hsuffix
    exact hsuffix
  · intro hsuffix
    apply Nat.le_antisymm hnew.le
    exact hnew.longest _ (Nat.le_refl _) ((List.take_length).symm ▸ hsuffix)

end ForStd.Kmp
