import Mathlib
import Ivygrep.Native.TantivyQuery

/-!
# What a Boolean query matches, and with which score

`BooleanWeight` takes match-all and empty scorers out of its lists and counts them. It still matches
the documents that satisfy every `Must` clause and no `MustNot` clause and, without a `Must` clause,
at least one `Should` clause (`complexScorer_matchesDoc`). Where no match-all scorer was taken out,
the score is the sum over the clauses that match (`complexScorer_scoreDoc`).
-/

namespace Ivygrep.Native.Tantivy

/-! ## The kinds of scorers -/

namespace Scorer

variable (matches_ : Nat → Bool) (score : Nat → Rat) (doc : Nat)

@[simp] theorem matchesDoc_all : all.matchesDoc doc = true := rfl

@[simp] theorem matchesDoc_empty : empty.matchesDoc doc = false := rfl

@[simp] theorem matchesDoc_docs : (docs matches_ score).matchesDoc doc = matches_ doc := rfl

@[simp] theorem scoreDoc_all : all.scoreDoc doc = 1 := rfl

@[simp] theorem scoreDoc_docs : (docs matches_ score).scoreDoc doc = score doc := rfl

@[simp] theorem isAll_all : all.isAll = true := rfl

@[simp] theorem isAll_empty : empty.isAll = false := rfl

@[simp] theorem isAll_docs : (docs matches_ score).isAll = false := rfl

@[simp] theorem isEmpty_all : all.isEmpty = false := rfl

@[simp] theorem isEmpty_empty : empty.isEmpty = true := rfl

@[simp] theorem isEmpty_docs : (docs matches_ score).isEmpty = false := rfl

end Scorer

/-! ## Sums of scores -/

@[simp] theorem sumScores_nil (doc : Nat) : sumScores doc [] = 0 := rfl

theorem sumScores_cons (doc : Nat) (scorer : Scorer) (scorers : List Scorer) :
    sumScores doc (scorer :: scorers) =
      (if scorer.matchesDoc doc then scorer.scoreDoc doc else 0) + sumScores doc scorers := by
  by_cases h : scorer.matchesDoc doc <;> simp [sumScores, h]

theorem sumScores_singleton (doc : Nat) (scorer : Scorer) :
    sumScores doc [scorer] = if scorer.matchesDoc doc then scorer.scoreDoc doc else 0 := by
  simp [sumScores_cons]

theorem sumScores_eq_zero {doc : Nat} {scorers : List Scorer}
    (h : ∀ scorer ∈ scorers, scorer.matchesDoc doc = false) : sumScores doc scorers = 0 := by
  rw [sumScores, List.filter_eq_nil_iff.mpr]
  · rfl
  · simpa using h

/-! ## The compound scorers -/

theorem intersectScorers_matchesDoc {maxDoc doc : Nat} (hdoc : doc < maxDoc)
    (scorers : List Scorer) :
    (intersectScorers maxDoc scorers).matchesDoc doc =
      (!scorers.isEmpty && scorers.all (·.matchesDoc doc)) := by
  match scorers with
  | [] => rfl
  | [scorer] => simp [intersectScorers]
  | first :: second :: rest =>
    simp only [intersectScorers]
    split
    · simp [Scorer.matchesDoc]
    · next hnone =>
      -- no document of the segment matches all of them, this one neither
      have hdiffers : ¬ (first :: second :: rest).all (·.matchesDoc doc) := by
        intro hall
        exact hnone (List.any_eq_true.mpr ⟨doc, by simpa using hdoc, hall⟩)
      simpa [Scorer.matchesDoc] using hdiffers

theorem intersectScorers_scoreDoc {maxDoc doc : Nat} {scorers : List Scorer}
    (h : (intersectScorers maxDoc scorers).matchesDoc doc) :
    (intersectScorers maxDoc scorers).scoreDoc doc = sumScores doc scorers := by
  match scorers with
  | [] => rfl
  | [scorer] =>
    have hscorer : scorer.matchesDoc doc := by simpa [intersectScorers] using h
    simp [intersectScorers, sumScores_singleton, hscorer]
  | first :: second :: rest =>
    simp only [intersectScorers] at h ⊢
    split at h
    · next hsome => rw [if_pos hsome, Scorer.scoreDoc_docs]
    · simp at h

theorem intersectScorers_isAll {maxDoc : Nat} {scorers : List Scorer}
    (h : ∀ scorer ∈ scorers, scorer.isAll = false) :
    (intersectScorers maxDoc scorers).isAll = false := by
  match scorers with
  | [] => rfl
  | [scorer] => exact h scorer (by simp)
  | _ :: _ :: _ =>
    simp only [intersectScorers]
    split <;> rfl

theorem scorerUnion_matchesDoc (scorers : List Scorer) (doc : Nat) :
    (scorerUnion scorers).matchesDoc doc = scorers.any (·.matchesDoc doc) := by
  match scorers with
  | [] => rfl
  | [scorer] => simp [scorerUnion]
  | _ :: _ :: _ => rfl

theorem scorerUnion_scoreDoc {scorers : List Scorer} {doc : Nat}
    (h : (scorerUnion scorers).matchesDoc doc) :
    (scorerUnion scorers).scoreDoc doc = sumScores doc scorers := by
  match scorers with
  | [] => rfl
  | [scorer] =>
    have hscorer : scorer.matchesDoc doc := h
    simp [scorerUnion, sumScores_singleton, hscorer]
  | _ :: _ :: _ => rfl

theorem scorerUnion_isAll {scorers : List Scorer}
    (h : ∀ scorer ∈ scorers, scorer.isAll = false) : (scorerUnion scorers).isAll = false := by
  match scorers with
  | [] => rfl
  | [scorer] => exact h scorer (by simp)
  | _ :: _ :: _ => rfl

/-- A union adds the scores of its parts, also where it does not match. -/
theorem sumScores_scorerUnion (scorers : List Scorer) (doc : Nat) :
    sumScores doc [scorerUnion scorers] = sumScores doc scorers := by
  rw [sumScores_singleton]
  split
  · next h => exact scorerUnion_scoreDoc h
  · next h =>
    rw [sumScores_eq_zero]
    simpa [scorerUnion_matchesDoc] using h

/-! ## Taking out the match-all and the empty scorers -/

/-- Without an empty scorer, all match when those that remain do. -/
theorem removeAndCount_all (scorers : List Scorer) (doc : Nat) :
    (∀ scorer ∈ scorers, scorer.matchesDoc doc) ↔
      (removeAndCountAllAndEmptyScorers scorers).numEmptyScorers = 0 ∧
        ∀ scorer ∈ (removeAndCountAllAndEmptyScorers scorers).scorers, scorer.matchesDoc doc := by
  simp only [removeAndCountAllAndEmptyScorers]
  induction scorers with
  | nil => simp
  | cons scorer rest ih =>
    cases scorer with
    | all => simpa using ih
    | empty => simp
    | docs matches_ score => simp [ih, and_left_comm]

/-- One matches when a match-all scorer was taken out or one that remains does. -/
theorem removeAndCount_any (scorers : List Scorer) (doc : Nat) :
    (∃ scorer ∈ scorers, scorer.matchesDoc doc) ↔
      0 < (removeAndCountAllAndEmptyScorers scorers).numAllScorers ∨
        ∃ scorer ∈ (removeAndCountAllAndEmptyScorers scorers).scorers, scorer.matchesDoc doc := by
  simp only [removeAndCountAllAndEmptyScorers]
  induction scorers with
  | nil => simp
  | cons scorer rest ih =>
    cases scorer with
    | all => simp
    | empty => simpa using ih
    | docs matches_ score =>
      rw [List.exists_mem_cons_iff, ih]
      simp [or_left_comm]

theorem removeAndCount_eq_nil (scorers : List Scorer) :
    scorers = [] ↔ (removeAndCountAllAndEmptyScorers scorers).scorers = [] ∧
      (removeAndCountAllAndEmptyScorers scorers).numAllScorers = 0 ∧
      (removeAndCountAllAndEmptyScorers scorers).numEmptyScorers = 0 := by
  simp only [removeAndCountAllAndEmptyScorers]
  cases scorers with
  | nil => simp
  | cons scorer rest => cases scorer <;> simp

/-- Only match-all scorers lose their score. -/
theorem removeAndCount_sumScores (scorers : List Scorer)
    (h : ∀ scorer ∈ scorers, scorer.isAll = false) (doc : Nat) :
    sumScores doc (removeAndCountAllAndEmptyScorers scorers).scorers = sumScores doc scorers := by
  simp only [removeAndCountAllAndEmptyScorers]
  induction scorers with
  | nil => rfl
  | cons scorer rest ih =>
    have hrest := ih fun other hother => h other (by simp [hother])
    cases scorer with
    | all => simpa using h .all
    | empty => simpa [sumScores_cons] using hrest
    | docs matches_ score => simpa [sumScores_cons] using hrest

theorem removeAndCount_numAllScorers {scorers : List Scorer}
    (h : ∀ scorer ∈ scorers, scorer.isAll = false) :
    (removeAndCountAllAndEmptyScorers scorers).numAllScorers = 0 := by
  simpa [removeAndCountAllAndEmptyScorers, List.countP_eq_zero] using h

theorem isAll_of_mem_removeAndCount {scorers : List Scorer} {scorer : Scorer}
    (h : scorer ∈ (removeAndCountAllAndEmptyScorers scorers).scorers) : scorer.isAll = false := by
  simp [removeAndCountAllAndEmptyScorers] at h
  exact h.2.1

/-! ## The scorer of a clause -/

section Include

variable {maxDoc doc : Nat} {mustScorers shouldScorers : List Scorer} {minimum mustAll shouldAll : Nat}

/-- One `Should` clause is asked for only where there is nothing else. -/
def MinimumAllowed (minimum mustAll shouldAll : Nat) (mustScorers shouldScorers : List Scorer) :
    Prop :=
  minimum ≤ shouldScorers.length ∧
    (minimum = 0 ∨ minimum = 1 ∧ mustScorers = [] ∧ mustAll = 0 ∧ shouldAll = 0)

theorem includeScorer_matchesDoc (hdoc : doc < maxDoc)
    (hminimum : MinimumAllowed minimum mustAll shouldAll mustScorers shouldScorers) :
    (includeScorer maxDoc mustAll shouldAll
        (combineShouldScorers minimum mustScorers shouldScorers)).matchesDoc doc ↔
      (∀ scorer ∈ mustScorers, scorer.matchesDoc doc) ∧
        (mustScorers = [] → mustAll = 0 →
          0 < shouldAll ∨ ∃ scorer ∈ shouldScorers, scorer.matchesDoc doc) := by
  obtain ⟨hlength, rfl | ⟨rfl, rfl, rfl, rfl⟩⟩ := hminimum
  · cases shouldScorers with
    | nil =>
      cases mustScorers with
      | nil =>
        by_cases hall : 0 < mustAll + shouldAll
        · simp [combineShouldScorers, includeScorer, effectiveMustScorer, hall]
          omega
        · simp [combineShouldScorers, includeScorer, effectiveMustScorer, hall]
          omega
      | cons must rest =>
        simp [combineShouldScorers, includeScorer, effectiveMustScorer,
          intersectScorers_matchesDoc hdoc]
    | cons should others =>
      cases mustScorers with
      | nil =>
        by_cases hmust : 0 < mustAll
        · have hne : mustAll ≠ 0 := by omega
          simp [combineShouldScorers, includeScorer, effectiveMustScorer, hmust, hne,
            requiredOptional]
        · have hzero : mustAll = 0 := by omega
          by_cases hshould : 0 < shouldAll
          · simp [combineShouldScorers, includeScorer, effectiveMustScorer, hzero, hshould,
              effectiveShouldScorerForUnion, bufferedUnion]
          · simp [combineShouldScorers, includeScorer, effectiveMustScorer, hzero, hshould,
              effectiveShouldScorerForUnion, scorerUnion_matchesDoc]
      | cons must rest =>
        simp [combineShouldScorers, includeScorer, effectiveMustScorer, requiredOptional,
          intersectScorers_matchesDoc hdoc]
  · simp [combineShouldScorers, includeScorer, effectiveMustScorer, scorerUnion_matchesDoc]

/-- Without match-all scorers the score is the sum over the scorers that match. -/
theorem includeScorer_scoreDoc
    (hminimum : MinimumAllowed minimum 0 0 mustScorers shouldScorers)
    (h : (includeScorer maxDoc 0 0
      (combineShouldScorers minimum mustScorers shouldScorers)).matchesDoc doc) :
    (includeScorer maxDoc 0 0
        (combineShouldScorers minimum mustScorers shouldScorers)).scoreDoc doc =
      sumScores doc mustScorers + sumScores doc shouldScorers := by
  obtain ⟨hlength, rfl | ⟨rfl, rfl, -⟩⟩ := hminimum
  · cases shouldScorers with
    | nil =>
      cases mustScorers with
      | nil => simp [combineShouldScorers, includeScorer, effectiveMustScorer] at h
      | cons must rest =>
        simp only [combineShouldScorers, includeScorer, effectiveMustScorer, List.isEmpty_nil,
          List.isEmpty_cons, if_true, Bool.false_eq_true, if_false, Option.getD_some] at h ⊢
        rw [intersectScorers_scoreDoc h]
        simp
    | cons should others =>
      cases mustScorers with
      | nil =>
        simp only [combineShouldScorers, includeScorer, effectiveMustScorer,
          effectiveShouldScorerForUnion, List.isEmpty_nil, List.isEmpty_cons, if_true,
          Bool.false_eq_true, if_false, Nat.lt_irrefl] at h ⊢
        rw [scorerUnion_scoreDoc h]
        simp
      | cons must rest =>
        simp only [combineShouldScorers, includeScorer, effectiveMustScorer, requiredOptional,
          List.isEmpty_cons, Bool.false_eq_true, if_false, Scorer.matchesDoc_docs,
          Scorer.scoreDoc_docs] at h ⊢
        rw [intersectScorers_scoreDoc h, sumScores_scorerUnion]
  · simp only [combineShouldScorers, includeScorer, effectiveMustScorer, List.isEmpty_nil,
      if_true, Nat.lt_irrefl, if_false] at h ⊢
    rw [scorerUnion_scoreDoc h]
    simp

theorem includeScorer_isAll (hmust : ∀ scorer ∈ mustScorers, scorer.isAll = false)
    (hshould : ∀ scorer ∈ shouldScorers, scorer.isAll = false)
    (hminimum : MinimumAllowed minimum 0 0 mustScorers shouldScorers) :
    (includeScorer maxDoc 0 0
      (combineShouldScorers minimum mustScorers shouldScorers)).isAll = false := by
  obtain ⟨hlength, rfl | ⟨rfl, rfl, -⟩⟩ := hminimum
  · cases shouldScorers with
    | nil =>
      cases mustScorers with
      | nil => rfl
      | cons must rest => exact intersectScorers_isAll hmust
    | cons should others =>
      cases mustScorers with
      | nil => exact scorerUnion_isAll hshould
      | cons must rest => rfl
  · exact scorerUnion_isAll hshould

end Include

/-- The documents of a Boolean query: every `Must` clause matches, no `MustNot` clause does and,
without a `Must` clause, some `Should` clause does. -/
def BooleanMatches (doc : Nat) (clauses : List (Occur × Scorer)) : Prop :=
  (∀ scorer ∈ occurScorers .must clauses, scorer.matchesDoc doc) ∧
    (∀ scorer ∈ occurScorers .mustNot clauses, ¬ scorer.matchesDoc doc) ∧
    (occurScorers .must clauses = [] →
      ∃ scorer ∈ occurScorers .should clauses, scorer.matchesDoc doc)

/-- The score of a Boolean query: what its `Must` and `Should` clauses add. -/
def booleanScore (doc : Nat) (clauses : List (Occur × Scorer)) : Rat :=
  sumScores doc (occurScorers .must clauses) + sumScores doc (occurScorers .should clauses)

theorem minimumRequired_le_one (occurs : List Occur) : minimumRequired occurs ≤ 1 := by
  simp only [minimumRequired]
  split <;> omega

theorem occurScorers_eq_nil {occur other : Occur} {clauses : List (Occur × Scorer)}
    (hother : other ≠ occur) (h : ∀ clause ∈ clauses, clause.1 = other) :
    occurScorers occur clauses = [] := by
  simp only [occurScorers, List.map_eq_nil_iff, List.filter_eq_nil_iff]
  intro clause hclause
  simp [h clause hclause, hother]

/-- The minimum of a query is one only where all its clauses are `Should` clauses. -/
theorem minimumRequired_cases (clauses : List (Occur × Scorer)) :
    minimumRequired (clauses.map (·.1)) = 0 ∨
      minimumRequired (clauses.map (·.1)) = 1 ∧ occurScorers .must clauses = [] := by
  simp only [minimumRequired]
  split
  · next hall =>
    simp only [Bool.and_eq_true, List.all_eq_true, decide_eq_true_eq, List.mem_map] at hall
    have hshould : ∀ clause ∈ clauses, clause.1 = .should :=
      fun clause hclause => hall.2 clause.1 ⟨clause, hclause, rfl⟩
    exact .inr ⟨rfl, occurScorers_eq_nil (by decide) hshould⟩
  · exact .inl rfl

/-- The last step of the scorer, with an empty list of excluded scorers or not. -/
theorem excludeIfAny_matchesDoc (included : Scorer) (excluded : List Scorer) (doc : Nat) :
    (if excluded.isEmpty then included else excludeScorers included excluded).matchesDoc doc ↔
      included.matchesDoc doc ∧ ∀ scorer ∈ excluded, ¬ scorer.matchesDoc doc := by
  split
  · next hempty => simp [List.isEmpty_iff.mp hempty]
  · simp [excludeScorers]

theorem excludeIfAny_scoreDoc (included : Scorer) (excluded : List Scorer) (doc : Nat) :
    (if excluded.isEmpty then included else excludeScorers included excluded).scoreDoc doc =
      included.scoreDoc doc := by
  split <;> rfl

theorem excludeIfAny_isAll {included : Scorer} (excluded : List Scorer)
    (h : included.isAll = false) :
    (if excluded.isEmpty then included else excludeScorers included excluded).isAll = false := by
  split
  · exact h
  · rfl

theorem complexScorer_matchesDoc {maxDoc doc : Nat} (hdoc : doc < maxDoc)
    (clauses : List (Occur × Scorer)) :
    (complexScorer maxDoc (minimumRequired (clauses.map (·.1))) clauses).matchesDoc doc ↔
      BooleanMatches doc clauses := by
  have hmust := removeAndCount_all (occurScorers .must clauses) doc
  have hmustNil := removeAndCount_eq_nil (occurScorers .must clauses)
  have hshould := removeAndCount_any (occurScorers .should clauses) doc
  have hexclude := removeAndCount_any (occurScorers .mustNot clauses) doc
  have hexcluded : (∀ scorer ∈ occurScorers .mustNot clauses, ¬ scorer.matchesDoc doc) ↔
      ¬ ∃ scorer ∈ occurScorers .mustNot clauses, scorer.matchesDoc doc := by simp
  have hminimum := minimumRequired_cases clauses
  simp only [BooleanMatches, complexScorer]
  rw [hmust, hmustNil, hshould, hexcluded, hexclude]
  rw [hmustNil] at hminimum
  generalize removeAndCountAllAndEmptyScorers (occurScorers .must clauses) = must at *
  generalize removeAndCountAllAndEmptyScorers (occurScorers .should clauses) = should at *
  generalize removeAndCountAllAndEmptyScorers (occurScorers .mustNot clauses) = exclude at *
  generalize minimumRequired (clauses.map (·.1)) = minimum at *
  clear hmust hmustNil hshould hexclude hexcluded
  by_cases hempty : 0 < must.numEmptyScorers
  · -- a `Must` clause matches nothing
    have hne : must.numEmptyScorers ≠ 0 := by omega
    simp [hempty, hne]
  · have hzero : must.numEmptyScorers = 0 := by omega
    by_cases hall : 0 < exclude.numAllScorers
    · -- a `MustNot` clause matches everything
      simp [hzero, hall]
    · by_cases hlength : should.scorers.length < minimum - should.numAllScorers
      · -- one `Should` clause is asked for, and none remains
        have hshouldAll : ¬ 0 < should.numAllScorers := by omega
        have hnone : should.scorers = [] := List.length_eq_zero_iff.mp (by omega)
        have hmustNone : must.scorers = [] ∧ must.numAllScorers = 0 := by
          rcases hminimum with h | h
          · omega
          · exact ⟨h.2.1, h.2.2.1⟩
        simp only [hempty, hall, hlength, if_false, if_true]
        simp [hzero, hshouldAll, hnone, hmustNone]
      · have hallowed : MinimumAllowed (minimum - should.numAllScorers) must.numAllScorers
            should.numAllScorers must.scorers should.scorers := by
          refine ⟨by omega, ?_⟩
          rcases hminimum with h | h
          · exact .inl (by omega)
          · by_cases hshouldAll : should.numAllScorers = 0
            · exact .inr ⟨by omega, h.2.1, h.2.2.1, hshouldAll⟩
            · exact .inl (by omega)
        simp only [hempty, hall, hlength, if_false]
        rw [excludeIfAny_matchesDoc, includeScorer_matchesDoc hdoc hallowed]
        simp only [hzero, true_and, and_true, false_or, not_exists, not_and, and_imp]
        constructor
        · intro h
          exact ⟨h.1.1, h.2, h.1.2⟩
        · intro h
          exact ⟨⟨h.1, h.2.2⟩, h.2.1⟩

/-- Where no `Must` or `Should` clause has a match-all scorer, nothing is taken out but empty
scorers, and a scorer that is not empty includes those that remain. -/
theorem complexScorer_cases (maxDoc : Nat) {clauses : List (Occur × Scorer)}
    (hmust : ∀ scorer ∈ occurScorers .must clauses, scorer.isAll = false)
    (hshould : ∀ scorer ∈ occurScorers .should clauses, scorer.isAll = false) :
    let must := removeAndCountAllAndEmptyScorers (occurScorers .must clauses)
    let should := removeAndCountAllAndEmptyScorers (occurScorers .should clauses)
    let excluded := (removeAndCountAllAndEmptyScorers (occurScorers .mustNot clauses)).scorers
    let minimum := minimumRequired (clauses.map (·.1))
    let included := includeScorer maxDoc 0 0
      (combineShouldScorers minimum must.scorers should.scorers)
    complexScorer maxDoc minimum clauses = .empty ∨
      MinimumAllowed minimum 0 0 must.scorers should.scorers ∧
        complexScorer maxDoc minimum clauses =
          if excluded.isEmpty then included else excludeScorers included excluded := by
  intro must should excluded minimum included
  have hminimum := minimumRequired_cases clauses
  rw [removeAndCount_eq_nil (occurScorers .must clauses)] at hminimum
  simp only [complexScorer, removeAndCount_numAllScorers hmust,
    removeAndCount_numAllScorers hshould, Nat.sub_zero]
  split
  · exact .inl rfl
  · split
    · exact .inl rfl
    · split
      · exact .inl rfl
      · next hlength =>
        refine .inr ⟨⟨Nat.le_of_not_lt hlength, ?_⟩, rfl⟩
        rcases hminimum with h | h
        · exact .inl h
        · exact .inr ⟨h.1, h.2.1, rfl, rfl⟩

theorem complexScorer_scoreDoc {maxDoc doc : Nat} {clauses : List (Occur × Scorer)}
    (hmust : ∀ scorer ∈ occurScorers .must clauses, scorer.isAll = false)
    (hshould : ∀ scorer ∈ occurScorers .should clauses, scorer.isAll = false)
    (h : (complexScorer maxDoc (minimumRequired (clauses.map (·.1))) clauses).matchesDoc doc) :
    (complexScorer maxDoc (minimumRequired (clauses.map (·.1))) clauses).scoreDoc doc =
      booleanScore doc clauses := by
  rcases complexScorer_cases maxDoc hmust hshould with hempty | ⟨hallowed, hincluded⟩
  · rw [hempty] at h
    simp at h
  · rw [hincluded] at h ⊢
    rw [excludeIfAny_scoreDoc,
      includeScorer_scoreDoc hallowed ((excludeIfAny_matchesDoc ..).mp h).1,
      removeAndCount_sumScores _ hmust, removeAndCount_sumScores _ hshould]
    rfl

theorem complexScorer_isAll {maxDoc : Nat} {clauses : List (Occur × Scorer)}
    (hmust : ∀ scorer ∈ occurScorers .must clauses, scorer.isAll = false)
    (hshould : ∀ scorer ∈ occurScorers .should clauses, scorer.isAll = false) :
    (complexScorer maxDoc (minimumRequired (clauses.map (·.1))) clauses).isAll = false := by
  rcases complexScorer_cases maxDoc hmust hshould with hempty | ⟨hallowed, hincluded⟩
  · rw [hempty]
    rfl
  · rw [hincluded]
    exact excludeIfAny_isAll _ (includeScorer_isAll (fun _ => isAll_of_mem_removeAndCount)
      (fun _ => isAll_of_mem_removeAndCount) hallowed)

/-! ## Boolean weights

A query with one clause has the scorer of that clause, or none; the others have the scorer above. -/

theorem booleanScorer_matchesDoc {maxDoc doc : Nat} (hdoc : doc < maxDoc)
    (clauses : List (Occur × Scorer)) :
    (booleanScorer maxDoc (minimumRequired (clauses.map (·.1))) clauses).matchesDoc doc ↔
      BooleanMatches doc clauses := by
  match clauses with
  | [] => simp [booleanScorer, BooleanMatches, occurScorers]
  | [(occur, scorer)] =>
    cases occur <;> simp [booleanScorer, BooleanMatches, occurScorers]
  | first :: second :: rest => exact complexScorer_matchesDoc hdoc _

theorem booleanScorer_scoreDoc {maxDoc doc : Nat} {clauses : List (Occur × Scorer)}
    (hmust : ∀ scorer ∈ occurScorers .must clauses, scorer.isAll = false)
    (hshould : ∀ scorer ∈ occurScorers .should clauses, scorer.isAll = false)
    (h : (booleanScorer maxDoc (minimumRequired (clauses.map (·.1))) clauses).matchesDoc doc) :
    (booleanScorer maxDoc (minimumRequired (clauses.map (·.1))) clauses).scoreDoc doc =
      booleanScore doc clauses := by
  match clauses with
  | [] => simp [booleanScorer] at h
  | [(occur, scorer)] =>
    cases occur with
    | should =>
      have hscorer : scorer.matchesDoc doc := h
      simp [booleanScorer, booleanScore, occurScorers, sumScores_singleton, hscorer]
    | must =>
      have hscorer : scorer.matchesDoc doc := h
      simp [booleanScorer, booleanScore, occurScorers, sumScores_singleton, hscorer]
    | mustNot => simp [booleanScorer] at h
  | first :: second :: rest => exact complexScorer_scoreDoc hmust hshould h

theorem booleanScorer_isAll {maxDoc : Nat} {clauses : List (Occur × Scorer)}
    (hmust : ∀ scorer ∈ occurScorers .must clauses, scorer.isAll = false)
    (hshould : ∀ scorer ∈ occurScorers .should clauses, scorer.isAll = false) :
    (booleanScorer maxDoc (minimumRequired (clauses.map (·.1))) clauses).isAll = false := by
  match clauses with
  | [] => rfl
  | [(occur, scorer)] =>
    cases occur with
    | should => exact hshould scorer (by simp [occurScorers])
    | must => exact hmust scorer (by simp [occurScorers])
    | mustNot => rfl
  | first :: second :: rest => exact complexScorer_isAll hmust hshould

/-! ## Trimmed trees -/

section Trees

variable {Literal : Type}

@[simp] theorem trimAst_leaf (literal : LogicalLiteral Literal) :
    trimAst (.leaf literal) = some (.leaf literal) := by
  simp [trimAst]

@[simp] theorem trimAst_boost (ast : LogicalAst Literal) (boost : Rat) :
    trimAst (.boost ast boost) = some (.boost ast boost) := by
  simp [trimAst]

/-- The clauses that trimming leaves, trimmed. -/
def trimmedClauses (clauses : List (Occur × LogicalAst Literal)) :
    List (Occur × LogicalAst Literal) :=
  clauses.filterMap fun entry => (trimAst entry.2).map fun child => (entry.1, child)

theorem trimAst_clause (clauses : List (Occur × LogicalAst Literal)) :
    trimAst (.clause clauses) =
      if (trimmedClauses clauses).isEmpty then none else some (.clause (trimmedClauses clauses)) := by
  rw [trimAst]
  rfl

theorem trimAst_clause_eq_none {clauses : List (Occur × LogicalAst Literal)} :
    trimAst (.clause clauses) = none ↔ ∀ entry ∈ clauses, trimAst entry.2 = none := by
  have hiff : (trimmedClauses clauses).isEmpty ↔ ∀ entry ∈ clauses, trimAst entry.2 = none := by
    simp [trimmedClauses, List.isEmpty_iff]
  rw [trimAst_clause, ← hiff]
  split <;> simp_all

/-- Trimming a second time changes nothing. -/
theorem trimAst_trimAst {ast trimmed : LogicalAst Literal} (h : trimAst ast = some trimmed) :
    trimAst trimmed = some trimmed := by
  induction ast using LogicalAst.induction generalizing trimmed with
  | leaf literal =>
    simp only [trimAst_leaf, Option.some.injEq] at h
    rw [← h, trimAst_leaf]
  | boost ast boost ih =>
    simp only [trimAst_boost, Option.some.injEq] at h
    rw [← h, trimAst_boost]
  | clause clauses ih =>
    rw [trimAst_clause] at h
    split at h
    · simp at h
    · next hnonempty =>
      cases h
      have htrimmed : trimmedClauses (trimmedClauses clauses) = trimmedClauses clauses := by
        have hsome : ∀ entry ∈ trimmedClauses clauses, trimAst entry.2 = some entry.2 := by
          intro entry hentry
          simp only [trimmedClauses, List.mem_filterMap, Option.map_eq_some_iff] at hentry
          obtain ⟨original, horiginal, child, hchild, rfl⟩ := hentry
          exact ih original horiginal hchild
        rw [trimmedClauses, List.filterMap_congr (g := some) (fun entry hentry => by
          rw [hsome entry hentry]; rfl), List.filterMap_some]
      rw [trimAst_clause, htrimmed, if_neg hnonempty]

theorem convertToQuery_eq (ast : LogicalAst Literal) :
    convertToQuery ast =
      match trimAst ast with
      | some (.clause trimmed) =>
        booleanQuery (trimmed.map fun entry => (entry.1, convertToQuery entry.2))
      | some (.leaf literal) => .literal literal
      | some (.boost child boost) => .boost (convertToQuery child) boost
      | none => .empty := by
  rw [convertToQuery]
  split
  · next trimmed h =>
    simp only [h, List.map_attach_eq_pmap, List.pmap_eq_map]
  all_goals simp_all

/-- The query depends on the trimmed tree only. -/
theorem convertToQuery_congr {ast other : LogicalAst Literal} (h : trimAst ast = trimAst other) :
    convertToQuery ast = convertToQuery other := by
  rw [convertToQuery_eq, convertToQuery_eq other, h]

/-! ## The scorer of a tree -/

/-- The factor that a boost in a query contributes; one that is too close to one is dropped. -/
def effectiveBoost (boost : Rat) : Rat := if isUnitBoost boost then 1 else boost

variable (segment : Segment Literal)

/-- The scorer of the query of a tree at a boost. -/
def treeScorer (ast : LogicalAst Literal) (boost : Rat) : Scorer :=
  weightScorer segment (convertToQuery ast) boost

theorem treeScorer_of_trimmed {ast : LogicalAst Literal} (h : trimAst ast = none) (boost : Rat) :
    treeScorer segment ast boost = .empty := by
  rw [treeScorer, convertToQuery_eq, h, weightScorer]

theorem treeScorer_leaf (literal : LogicalLiteral Literal) (boost : Rat) :
    treeScorer segment (.leaf literal) boost = segment.scorerOf literal boost := by
  rw [treeScorer, convertToQuery_eq, trimAst_leaf, weightScorer]

theorem treeScorer_boost (ast : LogicalAst Literal) (factor boost : Rat) :
    treeScorer segment (.boost ast factor) boost = treeScorer segment ast (boost * factor) := by
  rw [treeScorer, convertToQuery_eq, trimAst_boost, weightScorer]
  rfl

theorem treeScorer_boosted (ast : LogicalAst Literal) (factor boost : Rat) :
    treeScorer segment (ast.boosted factor) boost =
      treeScorer segment ast (boost * effectiveBoost factor) := by
  simp only [LogicalAst.boosted, effectiveBoost]
  split
  · rw [mul_one]
  · exact treeScorer_boost ..

theorem trimAst_boosted (ast : LogicalAst Literal) (factor : Rat) :
    trimAst (ast.boosted factor) = none ↔ isUnitBoost factor ∧ trimAst ast = none := by
  simp only [LogicalAst.boosted]
  split <;> simp_all

/-- The scorers of the clauses that trimming leaves. -/
def keptScorers (clauses : List (Occur × LogicalAst Literal)) (boost : Rat) :
    List (Occur × Scorer) :=
  (clauses.filter fun entry => (trimAst entry.2).isSome).map fun entry =>
    (entry.1, treeScorer segment entry.2 boost)

theorem keptScorers_eq (clauses : List (Occur × LogicalAst Literal)) (boost : Rat) :
    keptScorers segment clauses boost =
      (trimmedClauses clauses).map fun entry => (entry.1, treeScorer segment entry.2 boost) := by
  induction clauses with
  | nil => rfl
  | cons entry rest ih =>
    simp only [keptScorers, trimmedClauses] at ih ⊢
    cases htrim : trimAst entry.2 with
    | none => simpa [htrim] using ih
    | some trimmed =>
      have hsame : treeScorer segment trimmed boost = treeScorer segment entry.2 boost := by
        rw [treeScorer, treeScorer, convertToQuery_congr (trimAst_trimAst htrim |>.trans htrim.symm)]
      simpa [htrim, hsame] using ih

theorem treeScorer_clause (clauses : List (Occur × LogicalAst Literal)) (boost : Rat) :
    treeScorer segment (.clause clauses) boost =
      booleanScorer segment.maxDoc
        (minimumRequired ((keptScorers segment clauses boost).map (·.1)))
        (keptScorers segment clauses boost) := by
  rw [keptScorers_eq]
  by_cases hempty : (trimmedClauses clauses).isEmpty
  · have hnil := List.isEmpty_iff.mp hempty
    rw [treeScorer_of_trimmed, hnil]
    · rfl
    · rw [trimAst_clause, if_pos hempty]
  · rw [treeScorer, convertToQuery_eq, trimAst_clause, if_neg hempty]
    simp only [booleanQuery, weightScorer, List.map_map]
    rfl

section Clause

variable {segment} {clauses : List (Occur × LogicalAst Literal)} {boost : Rat} {doc : Nat}

theorem mem_occurScorers_keptScorers {occur : Occur} {scorer : Scorer} :
    scorer ∈ occurScorers occur (keptScorers segment clauses boost) ↔
      ∃ entry ∈ clauses, entry.1 = occur ∧ trimAst entry.2 ≠ none ∧
        scorer = treeScorer segment entry.2 boost := by
  simp only [occurScorers, keptScorers, List.mem_map, List.mem_filter, decide_eq_true_eq,
    Option.isSome_iff_ne_none]
  constructor
  · rintro ⟨_, ⟨⟨entry, ⟨hentry, htrim⟩, rfl⟩, hoccur⟩, rfl⟩
    exact ⟨entry, hentry, hoccur, htrim, rfl⟩
  · rintro ⟨entry, hentry, hoccur, htrim, rfl⟩
    exact ⟨_, ⟨⟨entry, ⟨hentry, htrim⟩, rfl⟩, hoccur⟩, rfl⟩

/-- A clause matches by the trees of its operands; those that are trimmed are left out of the
operands that must match. -/
theorem treeScorer_clause_matchesDoc (hdoc : doc < segment.maxDoc) :
    (treeScorer segment (.clause clauses) boost).matchesDoc doc ↔
      (∀ entry ∈ clauses, entry.1 = .must →
          trimAst entry.2 = none ∨ (treeScorer segment entry.2 boost).matchesDoc doc) ∧
        (∀ entry ∈ clauses, entry.1 = .mustNot →
          ¬ (treeScorer segment entry.2 boost).matchesDoc doc) ∧
        ((∀ entry ∈ clauses, entry.1 = .must → trimAst entry.2 = none) →
          ∃ entry ∈ clauses, entry.1 = .should ∧
            (treeScorer segment entry.2 boost).matchesDoc doc) := by
  have htrimmed : ∀ entry : Occur × LogicalAst Literal,
      (treeScorer segment entry.2 boost).matchesDoc doc → trimAst entry.2 ≠ none := by
    intro entry hmatches hnone
    rw [treeScorer_of_trimmed segment hnone] at hmatches
    simp at hmatches
  rw [treeScorer_clause, booleanScorer_matchesDoc hdoc, BooleanMatches]
  have hmust : (∀ scorer ∈ occurScorers .must (keptScorers segment clauses boost),
      scorer.matchesDoc doc) ↔ ∀ entry ∈ clauses, entry.1 = .must →
        trimAst entry.2 = none ∨ (treeScorer segment entry.2 boost).matchesDoc doc := by
    constructor
    · intro h entry hentry hoccur
      by_cases htrim : trimAst entry.2 = none
      · exact .inl htrim
      · exact .inr (h _ (mem_occurScorers_keptScorers.mpr ⟨entry, hentry, hoccur, htrim, rfl⟩))
    · intro h scorer hscorer
      obtain ⟨entry, hentry, hoccur, htrim, rfl⟩ := mem_occurScorers_keptScorers.mp hscorer
      exact (h entry hentry hoccur).resolve_left htrim
  have hmustNot : (∀ scorer ∈ occurScorers .mustNot (keptScorers segment clauses boost),
      ¬ scorer.matchesDoc doc) ↔ ∀ entry ∈ clauses, entry.1 = .mustNot →
        ¬ (treeScorer segment entry.2 boost).matchesDoc doc := by
    constructor
    · intro h entry hentry hoccur hmatches
      exact h _ (mem_occurScorers_keptScorers.mpr
        ⟨entry, hentry, hoccur, htrimmed entry hmatches, rfl⟩) hmatches
    · intro h scorer hscorer
      obtain ⟨entry, hentry, hoccur, htrim, rfl⟩ := mem_occurScorers_keptScorers.mp hscorer
      exact h entry hentry hoccur
  have hnil : occurScorers .must (keptScorers segment clauses boost) = [] ↔
      ∀ entry ∈ clauses, entry.1 = .must → trimAst entry.2 = none := by
    rw [List.eq_nil_iff_forall_not_mem]
    constructor
    · intro h entry hentry hoccur
      by_contra htrim
      exact h _ (mem_occurScorers_keptScorers.mpr ⟨entry, hentry, hoccur, htrim, rfl⟩)
    · intro h scorer hscorer
      obtain ⟨entry, hentry, hoccur, htrim, rfl⟩ := mem_occurScorers_keptScorers.mp hscorer
      exact htrim (h entry hentry hoccur)
  have hshould : (∃ scorer ∈ occurScorers .should (keptScorers segment clauses boost),
      scorer.matchesDoc doc) ↔ ∃ entry ∈ clauses, entry.1 = .should ∧
        (treeScorer segment entry.2 boost).matchesDoc doc := by
    constructor
    · intro ⟨scorer, hscorer, hmatches⟩
      obtain ⟨entry, hentry, hoccur, htrim, rfl⟩ := mem_occurScorers_keptScorers.mp hscorer
      exact ⟨entry, hentry, hoccur, hmatches⟩
    · intro ⟨entry, hentry, hoccur, hmatches⟩
      exact ⟨_, mem_occurScorers_keptScorers.mpr
        ⟨entry, hentry, hoccur, htrimmed entry hmatches, rfl⟩, hmatches⟩
  rw [hmust, hmustNot, hnil, hshould]

theorem treeScorer_clause_isAll
    (h : ∀ entry ∈ clauses, entry.1 ≠ .mustNot →
      (treeScorer segment entry.2 boost).isAll = false) :
    (treeScorer segment (.clause clauses) boost).isAll = false := by
  rw [treeScorer_clause]
  apply booleanScorer_isAll
  all_goals
    intro scorer hscorer
    obtain ⟨entry, hentry, hoccur, -, rfl⟩ := mem_occurScorers_keptScorers.mp hscorer
    exact h entry hentry (by rw [hoccur]; decide)

theorem booleanScore_cons (doc : Nat) (occur : Occur) (scorer : Scorer)
    (rest : List (Occur × Scorer)) :
    booleanScore doc ((occur, scorer) :: rest) =
      (if occur ≠ .mustNot ∧ scorer.matchesDoc doc then scorer.scoreDoc doc else 0) +
        booleanScore doc rest := by
  cases occur <;> simp [booleanScore, occurScorers, sumScores_cons] <;> ring

/-- What the operands of a clause add to its score. -/
theorem booleanScore_keptScorers (clauses : List (Occur × LogicalAst Literal)) :
    booleanScore doc (keptScorers segment clauses boost) =
      (clauses.map fun entry =>
        if entry.1 ≠ .mustNot ∧ (treeScorer segment entry.2 boost).matchesDoc doc then
          (treeScorer segment entry.2 boost).scoreDoc doc
        else 0).sum := by
  induction clauses with
  | nil => simp [keptScorers, booleanScore, occurScorers]
  | cons entry rest ih =>
    rw [List.map_cons, List.sum_cons, ← ih]
    cases htrim : trimAst entry.2 with
    | none => simp [keptScorers, htrim, treeScorer_of_trimmed]
    | some trimmed =>
      simp only [keptScorers, List.filter_cons, htrim, Option.isSome_some, if_true, List.map_cons]
      rw [booleanScore_cons]

theorem treeScorer_clause_scoreDoc
    (hall : ∀ entry ∈ clauses, entry.1 ≠ .mustNot →
      (treeScorer segment entry.2 boost).isAll = false)
    (h : (treeScorer segment (.clause clauses) boost).matchesDoc doc) :
    (treeScorer segment (.clause clauses) boost).scoreDoc doc =
      (clauses.map fun entry =>
        if entry.1 ≠ .mustNot ∧ (treeScorer segment entry.2 boost).matchesDoc doc then
          (treeScorer segment entry.2 boost).scoreDoc doc
        else 0).sum := by
  rw [treeScorer_clause] at h ⊢
  rw [← booleanScore_keptScorers]
  apply booleanScorer_scoreDoc _ _ h
  all_goals
    intro scorer hscorer
    obtain ⟨entry, hentry, hoccur, -, rfl⟩ := mem_occurScorers_keptScorers.mp hscorer
    exact hall entry hentry (by rw [hoccur]; decide)

end Clause

end Trees

end Ivygrep.Native.Tantivy
