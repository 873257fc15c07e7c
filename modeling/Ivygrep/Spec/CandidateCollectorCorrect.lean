import Ivygrep.Native.CandidateCollector

/-!
# Bounded collection is brute-force selection

The heap of a segment always holds the best of the admitted documents seen so far, whether or
not a document below the pruning threshold was looked at. So the merged result depends on the
documents alone, and not on their segments or on the order of the traversals.
-/

namespace Ivygrep.Native

open ForStd

/-! ## Score arithmetic -/

namespace F32

/-- A score that is neither NaN nor negative. -/
def IsScore (x : F32) : Prop := x.bits ≤ 0x7f800000

/-- Scores, and the thresholds that they are compared to: no NaN. -/
def IsNumber (x : F32) : Prop := x.isNan = false

variable {x y : F32}

theorem lt_iff_not_le (hx : x.IsNumber) (hy : y.IsNumber) : F32.lt x y = !F32.le y x := by
  unfold F32.lt F32.le
  unfold IsNumber at hx hy
  rw [hx, hy]
  simp only [Bool.not_false, Bool.true_and, ← decide_not, not_le]

theorem magnitude_of_isScore (h : x.IsScore) : x.magnitude = x.bits := by
  have hle : x.bits.toNat ≤ 0x7f800000 := UInt32.le_iff_toNat_le.mp h
  have hmask : (0x7fffffff : UInt32).toNat = 2 ^ 31 - 1 := rfl
  apply UInt32.toNat_inj.mp
  unfold magnitude
  rw [UInt32.toNat_and, hmask, Nat.and_two_pow_sub_one_eq_mod, Nat.mod_eq_of_lt (by omega)]

theorem isNumber_of_isScore (h : x.IsScore) : x.IsNumber := by
  unfold IsNumber isNan
  rw [magnitude_of_isScore h]
  have hle : x.bits.toNat ≤ 0x7f800000 := UInt32.le_iff_toNat_le.mp h
  have hlimit : (0x7f800000 : UInt32).toNat = 0x7f800000 := rfl
  rw [decide_eq_false_iff_not, UInt32.lt_iff_toNat_lt]
  omega

theorem order_of_isScore (h : x.IsScore) : x.order = x.bits.toNat := by
  have hle : x.bits.toNat ≤ 0x7f800000 := UInt32.le_iff_toNat_le.mp h
  have hsign : (0x80000000 : UInt32).toNat = 0x80000000 := rfl
  unfold order
  rw [magnitude_of_isScore h, if_pos]
  rw [UInt32.lt_iff_toNat_lt]
  omega

theorem le_of_isScore (hx : x.IsScore) (hy : y.IsScore) :
    F32.le x y = decide (x.bits.toNat ≤ y.bits.toNat) := by
  have hxn := isNumber_of_isScore hx
  have hyn := isNumber_of_isScore hy
  unfold IsNumber at hxn hyn
  unfold F32.le
  rw [hxn, hyn, order_of_isScore hx, order_of_isScore hy]
  simp

theorem isNumber_min : F32.min.IsNumber := by
  unfold IsNumber
  decide

/-- Every score is above the first threshold. -/
theorem le_min (h : x.IsScore) : F32.le x F32.min = false := by
  unfold F32.le
  rw [order_of_isScore h]
  have hmin : F32.min.order = -0x7f7fffff := by decide
  rw [hmin]
  simp
  omega

end F32

open F32

theorem candidateScoreBucket_of_isScore {score : F32} (h : score.IsScore) :
    candidateScoreBucket score = (score.bits.toNat / 1024 : Nat) := by
  have hnan := isNumber_of_isScore h
  unfold IsNumber at hnan
  have hzero : F32.lt score F32.zero = false := by
    unfold F32.lt
    have hz : F32.zero.order = 0 := by decide
    rw [order_of_isScore h, hz]
    simp
  unfold candidateScoreBucket
  rw [hnan, hzero, magnitude_of_isScore h]
  have hshift : (score.bits >>> candidateScoreIgnoredBits).toNat = score.bits.toNat / 1024 := by
    rw [UInt32.toNat_shiftRight, Nat.shiftRight_eq_div_pow]
    rfl
  simp [hshift]

/-- The threshold of a bucket is below its floor, but for bucket zero below every score. -/
theorem candidateBucketThreshold_of_isScore {score : F32} (h : score.IsScore) :
    (candidateScoreBucket score = 0 ∧
      candidateBucketThreshold (candidateScoreBucket score) = F32.min) ∨
    (0 < candidateScoreBucket score ∧
      (candidateBucketThreshold (candidateScoreBucket score)).IsScore ∧
      (candidateBucketThreshold (candidateScoreBucket score)).bits.toNat =
        score.bits.toNat / 1024 * 1024 - 64) := by
  rw [candidateScoreBucket_of_isScore h]
  have hle : score.bits.toNat ≤ 0x7f800000 := UInt32.le_iff_toNat_le.mp h
  generalize hbucket : score.bits.toNat / 1024 = bucket
  have hmax : bucket ≤ 0x1fe000 := by omega
  rcases Nat.eq_zero_or_pos bucket with rfl | hpos
  · exact .inl ⟨rfl, rfl⟩
  · right
    have hbits : ((UInt32.ofNat bucket <<< candidateScoreIgnoredBits) -
        candidatePruningMarginUlps).toNat = bucket * 1024 - 64 := by
      have hshift : (UInt32.ofNat bucket <<< candidateScoreIgnoredBits).toNat = bucket * 1024 := by
        rw [UInt32.toNat_shiftLeft, Nat.shiftLeft_eq]
        show (UInt32.ofNat bucket).toNat * 2 ^ 10 % 2 ^ 32 = _
        rw [UInt32.toNat_ofNat_of_lt' (by show bucket < 2 ^ 32; omega)]
        omega
      have hmargin : candidatePruningMarginUlps.toNat = 64 := rfl
      rw [UInt32.toNat_sub_of_le, hshift, hmargin]
      rw [UInt32.le_iff_toNat_le, hshift, hmargin]
      omega
    have hthreshold : candidateBucketThreshold (bucket : Nat) =
        ⟨(UInt32.ofNat bucket <<< candidateScoreIgnoredBits) - candidatePruningMarginUlps⟩ := by
      unfold candidateBucketThreshold
      rw [if_pos ⟨by omega, by omega⟩, Int.toNat_natCast]
    rw [hthreshold]
    refine ⟨by omega, ?_, hbits⟩
    unfold IsScore
    rw [UInt32.le_iff_toNat_le, hbits]
    show bucket * 1024 - 64 ≤ 0x7f800000
    omega

/-- A document in a bucket no worse than the kept one is never pruned. -/
theorem candidateBucketThreshold_lt {score worst : F32} (hscore : score.IsScore)
    (hworst : worst.IsScore) (h : candidateScoreBucket worst ≤ candidateScoreBucket score) :
    F32.lt (candidateBucketThreshold (candidateScoreBucket worst)) score = true := by
  rcases candidateBucketThreshold_of_isScore hworst with ⟨-, hmin⟩ | ⟨hpos, hnumber, hbits⟩
  · rw [hmin, lt_iff_not_le isNumber_min (isNumber_of_isScore hscore), le_min hscore]
    rfl
  · rw [lt_iff_not_le (isNumber_of_isScore hnumber) (isNumber_of_isScore hscore),
      le_of_isScore hscore hnumber, hbits]
    rw [candidateScoreBucket_of_isScore hscore, candidateScoreBucket_of_isScore hworst] at h
    rw [candidateScoreBucket_of_isScore hworst] at hpos
    simp only [Bool.not_eq_true', decide_eq_false_iff_not]
    omega

/-! ## The heap of a segment -/

namespace SegmentCollector

/-- The best `limit` of the candidates seen. -/
def best (limit : Nat) (seen : List Candidate) : List Candidate :=
  (seen.insertionSort (· ≥ ·)).take limit

/-- The heap holds the best candidates, and the threshold follows the worst of a full heap. -/
structure HeapOk (limit : Nat) (seen : List Candidate) (state : SegmentCollector) : Prop where
  heap_eq : state.heap = best limit seen
  scores : ∀ candidate ∈ seen, ∃ score : F32, score.IsScore ∧
    candidate.rank.bucket = candidateScoreBucket score
  threshold_of_room : state.heap.length < limit → state.threshold = F32.min
  threshold_of_full : limit ≤ state.heap.length → ∀ worst, peek state.heap = some worst →
    state.threshold = candidateBucketThreshold worst.rank.bucket

variable {limit : Nat} {seen : List Candidate} {state : SegmentCollector} {entry worst : Candidate}

theorem heapOk_first (limit : Nat) : HeapOk limit [] ⟨[], F32.min⟩ where
  heap_eq := by simp [best]
  scores := by simp
  threshold_of_room := fun _ => rfl
  threshold_of_full := by simp [peek]

theorem mem_of_mem_best {candidate : Candidate} (h : candidate ∈ best limit seen) :
    candidate ∈ seen :=
  (List.mem_insertionSort _).mp (List.mem_of_mem_take h)

theorem best_sorted (limit : Nat) (seen : List Candidate) : (best limit seen).Pairwise (· ≥ ·) :=
  (List.pairwise_insertionSort (· ≥ ·) seen).sublist (List.take_sublist limit _)

/-- One more candidate. -/
theorem best_concat (limit : Nat) (seen : List Candidate) (entry : Candidate) :
    best limit (seen ++ [entry]) = (insertLast (· ≥ ·) entry (best limit seen)).take limit := by
  unfold best
  rw [insertionSort_concat, take_insertLast]

/-- The last entry is the worst one. -/
theorem ge_of_peek (h : peek (best limit seen) = some worst) :
    ∀ candidate ∈ best limit seen, candidate ≥ worst := by
  intro candidate hcandidate
  obtain ⟨front, hfront⟩ := List.getLast?_eq_some_iff.mp h
  have hsorted := best_sorted limit seen
  rw [hfront] at hsorted hcandidate
  rcases List.mem_append.mp hcandidate with hmem | hmem
  · exact (List.pairwise_append.mp hsorted).2.2 candidate hmem worst (List.mem_singleton_self _)
  · obtain rfl : candidate = worst := by simpa using hmem
    exact le_refl _

theorem exists_peek (hlimit : 0 < limit) {heap : List Candidate} (hfull : limit ≤ heap.length) :
    ∃ worst, peek heap = some worst := by
  have hne : heap ≠ [] := by
    rintro rfl
    exact absurd hfull (Nat.not_le.mpr hlimit)
  exact ⟨_, List.getLast?_eq_some_getLast hne⟩

/-- A full heap keeps out what is no better than its worst entry. -/
theorem best_concat_of_le (hfull : limit ≤ (best limit seen).length)
    (hpeek : peek (best limit seen) = some worst) (hle : entry ≤ worst) :
    best limit (seen ++ [entry]) = best limit seen := by
  unfold best at *
  rw [insertionSort_concat]
  refine take_insertLast_of_forall _ (fun candidate hcandidate => ?_) ?_
  · exact hle.trans (ge_of_peek hpeek candidate hcandidate)
  · rw [List.length_take] at hfull
    omega

/-- In a full heap the worst entry makes room for a better one. -/
theorem best_concat_of_gt (hfull : limit ≤ (best limit seen).length)
    (hpeek : peek (best limit seen) = some worst) (hgt : ¬ entry ≤ worst) :
    best limit (seen ++ [entry]) = replaceTop (best limit seen) entry := by
  obtain ⟨front, hfront⟩ := List.getLast?_eq_some_iff.mp hpeek
  have hlength : (best limit seen).length = limit := by
    have hle : (best limit seen).length ≤ limit := List.length_take_le ..
    omega
  rw [hfront, List.length_append, List.length_singleton] at hlength
  have hinsert : insertLast (· ≥ ·) entry (front ++ [worst]) =
      insertLast (· ≥ ·) entry front ++ [worst] := insertLast_concat_of_not (· ≥ ·) hgt front
  rw [best_concat, hfront]
  unfold replaceTop push
  rw [hinsert, List.dropLast_concat, List.take_append_of_le_length,
    List.take_of_length_le]
  · rw [length_insertLast]
    omega
  · rw [length_insertLast]
    omega

theorem best_concat_of_room (hroom : (best limit seen).length < limit) (entry : Candidate) :
    best limit (seen ++ [entry]) = push (best limit seen) entry := by
  rw [best_concat, List.take_of_length_le]
  · rfl
  · rw [length_insertLast]
    omega

/-! ## One document -/

theorem heapOk_withHeap (h : HeapOk limit seen state)
    {heap : List Candidate} (hheap : heap = best limit (seen ++ [entry]))
    {score : F32} (hscore : score.IsScore) (hbucket : entry.rank.bucket = candidateScoreBucket score) :
    HeapOk limit (seen ++ [entry]) (withHeap limit state heap) where
  heap_eq := hheap
  scores := by
    intro candidate hcandidate
    rcases List.mem_append.mp hcandidate with hmem | hmem
    · exact h.scores candidate hmem
    · obtain rfl : candidate = entry := by simpa using hmem
      exact ⟨score, hscore, hbucket⟩
  threshold_of_room := by
    intro hroom
    have hroom : heap.length < limit := hroom
    have hbefore : state.heap.length < limit := by
      have hseen : (best limit (seen ++ [entry])).length =
          min limit (seen.length + 1) := by
        simp [best]
      have hold : state.heap.length = min limit seen.length := by
        rw [h.heap_eq]
        simp [best]
      rw [hheap] at hroom
      omega
    unfold withHeap
    rw [if_neg (by omega)]
    exact h.threshold_of_room hbefore
  threshold_of_full := by
    intro hfull worst hworst
    have hfull : limit ≤ heap.length := hfull
    have hworst : peek heap = some worst := hworst
    unfold withHeap
    rw [if_pos hfull, hworst]

/-- A candidate that leaves the best ones as they are. -/
theorem heapOk_of_best_eq (h : HeapOk limit seen state)
    (hsame : best limit (seen ++ [entry]) = best limit seen)
    {score : F32} (hscore : score.IsScore) (hbucket : entry.rank.bucket = candidateScoreBucket score) :
    HeapOk limit (seen ++ [entry]) state := by
  refine ⟨by rw [hsame]; exact h.heap_eq, ?_, h.threshold_of_room, h.threshold_of_full⟩
  intro candidate hcandidate
  rcases List.mem_append.mp hcandidate with hmem | hmem
  · exact h.scores candidate hmem
  · obtain rfl : candidate = entry := by simpa using hmem
    exact ⟨score, hscore, hbucket⟩

theorem threshold_isNumber (hlimit : 0 < limit) (h : HeapOk limit seen state) :
    state.threshold.IsNumber := by
  rcases Nat.lt_or_ge state.heap.length limit with hroom | hfull
  · rw [h.threshold_of_room hroom]
    exact isNumber_min
  · obtain ⟨worst, hworst⟩ := exists_peek hlimit hfull
    have hmem : worst ∈ best limit seen := by
      rw [← h.heap_eq]
      exact List.mem_of_getLast? hworst
    obtain ⟨score, hscore, hbucket⟩ := h.scores worst (mem_of_mem_best hmem)
    rw [h.threshold_of_full hfull worst hworst, hbucket]
    rcases candidateBucketThreshold_of_isScore hscore with ⟨-, hmin⟩ | ⟨-, hnumber, -⟩
    · rw [hmin]
      exact isNumber_min
    · exact isNumber_of_isScore hnumber

section Document

variable {segmentOrd doc : Nat} {document : SegmentDocument} {score : F32}

theorem rank_lt_of_bucket_lt {left right : Candidate}
    (h : left.rank.bucket < right.rank.bucket) : left.rank < right.rank := by
  show left.rank.order < right.rank.order
  exact Prod.Lex.lt_iff.mpr (.inl h)

theorem le_of_rank_le {left right : Candidate} (h : left.rank ≤ right.rank)
    (hne : right.rank ≠ left.rank) : left ≤ right :=
  Prod.Lex.le_iff.mpr (.inl (lt_of_le_of_ne h hne.symm))

/-- A document that the threshold prunes cannot enter the heap. -/
theorem heapOk_pruned (hlimit : 0 < limit) (h : HeapOk limit seen state) (hscore : score.IsScore)
    (hpruned : F32.le score state.threshold = true) :
    HeapOk limit (seen ++ [candidateOf segmentOrd doc document score]) state := by
  have hfull : limit ≤ state.heap.length := by
    by_contra hroom
    rw [h.threshold_of_room (Nat.not_le.mp hroom), le_min hscore] at hpruned
    cases hpruned
  obtain ⟨worst, hworst⟩ := exists_peek hlimit hfull
  have hmem : worst ∈ best limit seen := by
    rw [← h.heap_eq]
    exact List.mem_of_getLast? hworst
  obtain ⟨kept, hkept, hbucket⟩ := h.scores worst (mem_of_mem_best hmem)
  -- Its bucket is below that of the worst entry.
  have hbelow : candidateScoreBucket score < worst.rank.bucket := by
    by_contra hge
    rw [hbucket] at hge
    have hlt := candidateBucketThreshold_lt hscore hkept (not_lt.mp hge)
    rw [h.threshold_of_full hfull worst hworst, hbucket] at hpruned
    rw [lt_iff_not_le, hpruned] at hlt
    · cases hlt
    · rw [← hbucket, ← h.threshold_of_full hfull worst hworst]
      exact threshold_isNumber hlimit h
    · exact isNumber_of_isScore hscore
  have hle : candidateOf segmentOrd doc document score ≤ worst :=
    Prod.Lex.le_iff.mpr (.inl (rank_lt_of_bucket_lt hbelow))
  refine heapOk_of_best_eq h ?_ hscore rfl
  rw [h.heap_eq] at hfull hworst
  exact best_concat_of_le hfull hworst hle

/-- What the heap has seen after a document that was collected. -/
theorem heapOk_collect (hlimit : 0 < limit) (h : HeapOk limit seen state) (hscore : score.IsScore)
    (hfresh : ∀ candidate ∈ seen,
      candidate.rank ≠ (candidateOf segmentOrd doc document score).rank)
    (admission : Option CandidateAdmission) :
    HeapOk limit
      (if CandidateEligibility.isNoneOr admission fun admission => admission.admits document.stored
        then seen ++ [candidateOf segmentOrd doc document score] else seen)
      (collect limit admission segmentOrd doc document score state) := by
  unfold collect
  by_cases hpruned : F32.le score state.threshold = true
  · rw [if_pos hpruned]
    split
    · exact heapOk_pruned hlimit h hscore hpruned
    · exact h
  · rw [if_neg hpruned]
    dsimp only
    by_cases hfull : limit ≤ state.heap.length
    · obtain ⟨worst, hworst⟩ := exists_peek hlimit hfull
      have hmem : worst ∈ best limit seen := by
        rw [← h.heap_eq]
        exact List.mem_of_getLast? hworst
      have hbest : peek (best limit seen) = some worst := by
        rw [← h.heap_eq]
        exact hworst
      have hlength : limit ≤ (best limit seen).length := by
        rw [← h.heap_eq]
        exact hfull
      by_cases hrank : (candidateOf segmentOrd doc document score).rank ≤ worst.rank
      · simp only [hworst, hfull, hrank, decide_true, Bool.and_self, if_true]
        split
        · exact heapOk_of_best_eq h (best_concat_of_le hlength hbest (le_of_rank_le hrank
            (hfresh worst (mem_of_mem_best hmem)))) hscore rfl
        · exact h
      · simp only [hworst, hfull, hrank, decide_true, decide_false, Bool.and_false,
          Bool.false_eq_true, if_false, if_true]
        split
        · -- A better entry than the worst one takes its place.
          have hgt : ¬ candidateOf segmentOrd doc document score ≤ worst := by
            intro hle
            rcases Prod.Lex.le_iff.mp hle with hlt | ⟨heq, -⟩
            · exact hrank hlt.le
            · exact hrank (le_of_eq heq)
          refine heapOk_withHeap h ?_ hscore rfl
          rw [best_concat_of_gt hlength hbest hgt, h.heap_eq]
        · exact h
    · simp only [hfull, decide_false, Bool.false_and, Bool.false_eq_true, if_false]
      split
      · refine heapOk_withHeap h ?_ hscore rfl
        have hroom : (best limit seen).length < limit := by
          rw [← h.heap_eq]
          exact Nat.not_le.mp hfull
        rw [best_concat_of_room hroom, h.heap_eq]
      · exact h

end Document

/-! ## One segment -/

/-- What a traversal should see of a document: its candidate, when it is alive, matches the
    query and is admitted. -/
def admitted (admission : Option CandidateAdmission) (segmentOrd : Nat) (segment : Segment)
    (doc : Nat) : Option Candidate :=
  segment[doc]?.bind fun document =>
    if document.live && CandidateEligibility.isNoneOr admission fun admission =>
        admission.admits document.stored
    then document.score.map (candidateOf segmentOrd doc document) else none

/-- The matching documents that are alive have scores. -/
def Scored (segment : Segment) : Prop :=
  ∀ document ∈ segment, document.live = true → ∀ score, document.score = some score →
    score.IsScore

variable {admission : Option CandidateAdmission} {segmentOrd : Nat} {segment : Segment}

/-- A visitor that collects a document above the threshold, and any other only with its flag. -/
structure Visitor (limit : Nat) (admission : Option CandidateAdmission) (segmentOrd : Nat)
    (segment : Segment) (visit : SegmentCollector → Nat × Bool → SegmentCollector) : Prop where
  skip : ∀ state doc flag, (∀ document score, segment[doc]? = some document →
      document.score = some score → document.live = false) → visit state (doc, flag) = state
  collects : ∀ state doc flag document score, segment[doc]? = some document →
    document.score = some score → document.live = true →
    visit state (doc, flag) = collect limit admission segmentOrd doc document score state ∨
      (visit state (doc, flag) = state ∧ F32.lt state.threshold score = false)

theorem visitor_visitPruning (limit : Nat) (admission : Option CandidateAdmission)
    (segmentOrd : Nat) (segment : Segment) :
    Visitor limit admission segmentOrd segment (visitPruning limit admission segmentOrd segment) where
  skip := by
    intro state doc flag hdead
    unfold visitPruning
    cases hdocument : segment[doc]? with
    | none => rfl
    | some document =>
      cases hscore : document.score with
      | none => simp only [hscore]
      | some score =>
        simp only [hscore]
        rw [hdead document score hdocument hscore]
        simp
  collects := by
    intro state doc flag document score hdocument hscore hlive
    unfold visitPruning
    simp only [hdocument, hscore, hlive, if_true]
    cases hlt : F32.lt state.threshold score with
    | true => exact .inl rfl
    | false =>
      cases flag with
      | true => exact .inl rfl
      | false => exact .inr ⟨rfl, rfl⟩

theorem visitor_visitScorer (limit : Nat) (admission : Option CandidateAdmission)
    (segmentOrd : Nat) (segment : Segment) :
    Visitor limit admission segmentOrd segment (visitScorer limit admission segmentOrd segment) where
  skip := by
    intro state doc flag hdead
    unfold visitScorer
    cases hdocument : segment[doc]? with
    | none => rfl
    | some document =>
      cases hscore : document.score with
      | none => simp only [hscore]
      | some score =>
        simp only [hscore]
        rw [hdead document score hdocument hscore]
        rfl
  collects := by
    intro state doc flag document score hdocument hscore hlive
    unfold visitScorer
    simp only [hdocument, hscore, hlive, if_true]
    cases hlt : F32.lt state.threshold score with
    | true => exact .inl rfl
    | false => exact .inr ⟨rfl, rfl⟩

/-- The heap after one document of a traversal. -/
theorem heapOk_visit (hlimit : 0 < limit) (h : HeapOk limit seen state) (hscored : Scored segment)
    {visit : SegmentCollector → Nat × Bool → SegmentCollector}
    (hvisit : Visitor limit admission segmentOrd segment visit) (doc : Nat) (flag : Bool)
    (hfresh : ∀ candidate ∈ seen, candidate.rank.doc ≠ doc) :
    HeapOk limit (seen ++ (admitted admission segmentOrd segment doc).toList)
      (visit state (doc, flag)) := by
  by_cases hdead : ∀ document score, segment[doc]? = some document →
      document.score = some score → document.live = false
  · have hnone : admitted admission segmentOrd segment doc = none := by
      unfold admitted
      cases hdocument : segment[doc]? with
      | none => rfl
      | some document =>
        cases hscore : document.score with
        | none => simp [hscore]
        | some score => simp [hdead document score hdocument hscore]
    rw [hvisit.skip state doc flag hdead, hnone, Option.toList_none, List.append_nil]
    exact h
  · simp only [not_forall, Bool.not_eq_false] at hdead
    obtain ⟨document, score, hdocument, hscore, hlive⟩ := hdead
    have hnumber : score.IsScore :=
      hscored document (List.mem_of_getElem? hdocument) hlive score hscore
    have hadmitted : seen ++ (admitted admission segmentOrd segment doc).toList =
        if CandidateEligibility.isNoneOr admission fun admission => admission.admits document.stored
        then seen ++ [candidateOf segmentOrd doc document score] else seen := by
      unfold admitted
      rw [hdocument, Option.bind_some, hlive, hscore, Bool.true_and]
      split
      · rfl
      · simp
    have hrank : ∀ candidate ∈ seen,
        candidate.rank ≠ (candidateOf segmentOrd doc document score).rank :=
      fun candidate hcandidate heq => hfresh candidate hcandidate (congrArg CandidateRank.doc heq)
    rw [hadmitted]
    rcases hvisit.collects state doc flag document score hdocument hscore hlive with
      hcollect | ⟨hsame, hlt⟩
    · rw [hcollect]
      exact heapOk_collect hlimit h hnumber hrank admission
    · have hpruned : F32.le score state.threshold = true := by
        rw [lt_iff_not_le (threshold_isNumber hlimit h) (isNumber_of_isScore hnumber)] at hlt
        simpa using hlt
      rw [hsame]
      split
      · exact heapOk_pruned hlimit h hnumber hpruned
      · exact h

/-- The heap after a traversal of some of the documents. -/
theorem heapOk_foldl (hlimit : 0 < limit) (hscored : Scored segment)
    {visit : SegmentCollector → Nat × Bool → SegmentCollector}
    (hvisit : Visitor limit admission segmentOrd segment visit) (traversal : Traversal)
    (hnodup : (traversal.map Prod.fst).Nodup) :
    HeapOk limit ((traversal.map Prod.fst).filterMap (admitted admission segmentOrd segment))
      (traversal.foldl visit ⟨[], F32.min⟩) := by
  induction traversal using List.reverseRecOn with
  | nil => exact heapOk_first limit
  | append_singleton traversal last ih =>
    obtain ⟨doc, flag⟩ := last
    rw [List.map_append, List.map_singleton] at hnodup
    rw [List.foldl_concat, List.map_append, List.map_singleton, List.filterMap_append]
    have hlast : [doc].filterMap (admitted admission segmentOrd segment) =
        (admitted admission segmentOrd segment doc).toList := by
      cases hadmitted : admitted admission segmentOrd segment doc <;> simp [hadmitted]
    rw [hlast]
    refine heapOk_visit hlimit (ih hnodup.of_append_left) hscored hvisit doc flag ?_
    intro candidate hcandidate hdoc
    obtain ⟨before, hbefore, hadmitted⟩ := List.mem_filterMap.mp hcandidate
    -- A candidate seen before is of another document.
    have hsame : candidate.rank.doc = before := by
      unfold admitted at hadmitted
      obtain ⟨document, -, hcandidate⟩ := Option.bind_eq_some_iff.mp hadmitted
      split at hcandidate
      · obtain ⟨score, -, rfl⟩ := Option.map_eq_some_iff.mp hcandidate
        rfl
      · cases hcandidate
    rw [hsame] at hdoc
    subst hdoc
    exact List.disjoint_of_nodup_append hnodup hbefore (List.mem_singleton_self _)

/-- A traversal looks at every document of its segment once. -/
def Traverses (segment : Segment) (traversal : Traversal) : Prop :=
  (traversal.map Prod.fst).Perm (List.range segment.length)

/-- The candidates of a segment. -/
def candidates (admission : Option CandidateAdmission) (segmentOrd : Nat) (segment : Segment) :
    List Candidate :=
  (List.range segment.length).filterMap (admitted admission segmentOrd segment)

/-- A segment yields its best admitted documents, whatever the traversal. -/
theorem collectSegment_heap (hlimit : 0 < limit) (hscored : Scored segment)
    (admission : Option CandidateAdmission) (segmentOrd : Nat) {traversal : Traversal}
    (htraversal : Traverses segment traversal) :
    (collectSegment limit admission segmentOrd segment traversal).heap =
      best limit (candidates admission segmentOrd segment) := by
  have hnodup : (traversal.map Prod.fst).Nodup := htraversal.nodup_iff.mpr List.nodup_range
  have hheap : ∀ visit, Visitor limit admission segmentOrd segment visit →
      (traversal.foldl visit ⟨[], F32.min⟩).heap =
        best limit (candidates admission segmentOrd segment) := by
    intro visit hvisit
    rw [(heapOk_foldl hlimit hscored hvisit traversal hnodup).heap_eq]
    unfold best candidates
    rw [insertionSort_eq_of_perm (· ≥ ·) (fun _ _ _ _ hle hge => le_antisymm hge hle)
      (htraversal.filterMap _)]
  unfold collectSegment
  cases admission with
  | none => exact hheap _ (visitor_visitPruning limit none segmentOrd segment)
  | some admission =>
    cases htoken : admission.cancelToken with
    | true =>
      simp only [htoken, if_true]
      exact hheap _ (visitor_visitScorer limit (some admission) segmentOrd segment)
    | false =>
      simp only [htoken, Bool.false_eq_true, if_false]
      exact hheap _ (visitor_visitPruning limit (some admission) segmentOrd segment)

end SegmentCollector

/-! ## All segments -/

open SegmentCollector

/-- A live document that the query matches. -/
structure Located where
  address : DocAddress
  document : SegmentDocument
  score : F32

namespace Located

/-- Its chunk key. -/
def key (found : Located) : Nat := found.document.key.getD missingKey

/-- What does not depend on the layout: the score, the key and the stored fields. -/
def content (found : Located) : F32 × Nat × StoredDocument :=
  (found.score, found.key, found.document.stored)

def candidate (found : Located) : Candidate :=
  candidateOf found.address.1 found.address.2 found.document found.score

/-- What is reported of it. -/
def reported (found : Located) : F32 × DocAddress :=
  (candidateBucketScore found.score, found.address)

end Located

/-- The order of the result: by bucket downwards, then by key upwards. -/
def ContentBefore (left right : F32 × Nat × StoredDocument) : Prop :=
  candidateScoreBucket right.1 < candidateScoreBucket left.1 ∨
    candidateScoreBucket left.1 = candidateScoreBucket right.1 ∧ left.2.1 ≤ right.2.1

instance : DecidableRel ContentBefore := fun left right =>
  inferInstanceAs (Decidable (candidateScoreBucket right.1 < candidateScoreBucket left.1 ∨
    candidateScoreBucket left.1 = candidateScoreBucket right.1 ∧ left.2.1 ≤ right.2.1))

instance : IsTrans _ ContentBefore where
  trans a b c hab hbc := by
    unfold ContentBefore at *
    omega

instance : Std.Total ContentBefore where
  total a b := by
    unfold ContentBefore
    omega

/-- The order of the result, on the documents. -/
def Located.Before (left right : Located) : Prop := ContentBefore left.content right.content

instance : DecidableRel Located.Before := fun left right =>
  inferInstanceAs (Decidable (ContentBefore left.content right.content))

instance : IsTrans Located Located.Before where
  trans _ _ _ hab hbc := trans_of ContentBefore hab hbc

instance : Std.Total Located.Before where
  total a b := total_of ContentBefore a.content b.content

/-- The document of a segment, when it is alive and matches. -/
def locate (segmentOrd : Nat) (segment : Segment) (doc : Nat) : Option Located :=
  segment[doc]?.bind fun document =>
    if document.live then document.score.map fun score => ⟨(segmentOrd, doc), document, score⟩
    else none

def locatedIn (segmentOrd : Nat) (segment : Segment) : List Located :=
  (List.range segment.length).filterMap (locate segmentOrd segment)

/-- The live documents that match. -/
def located (segments : List Segment) : List Located :=
  (segments.mapIdx locatedIn).flatten

/-- The brute-force result: the first `limit` admitted documents. -/
def topDocuments (admits : StoredDocument → Bool) (limit : Nat) (segments : List Segment) :
    List Located :=
  (((located segments).filter fun found => admits found.document.stored).insertionSort
    Located.Before).take limit

/-- The predicate of an optional admission. -/
def admissionAdmits (admission : Option CandidateAdmission) (stored : StoredDocument) : Bool :=
  CandidateEligibility.isNoneOr admission fun admission => admission.admits stored

theorem candidates_eq (admission : Option CandidateAdmission) (segmentOrd : Nat)
    (segment : Segment) :
    candidates admission segmentOrd segment =
      ((locatedIn segmentOrd segment).filter fun found =>
        admissionAdmits admission found.document.stored).map Located.candidate := by
  unfold candidates locatedIn
  rw [List.filter_filterMap, List.map_filterMap]
  refine List.filterMap_congr fun doc _ => ?_
  unfold admitted locate
  cases segment[doc]? with
  | none => rfl
  | some document =>
    rw [Option.bind_some, Option.bind_some]
    cases hlive : document.live with
    | false => rfl
    | true =>
      cases hscore : document.score with
      | none => simp
      | some score =>
        unfold admissionAdmits
        cases hadmits : CandidateEligibility.isNoneOr admission fun admission =>
            admission.admits document.stored with
        | false => simp [hadmits]
        | true => simp [hadmits, Located.candidate]

theorem flatten_candidates (admission : Option CandidateAdmission) (segments : List Segment) :
    (segments.mapIdx (candidates admission)).flatten =
      ((located segments).filter fun found =>
        admissionAdmits admission found.document.stored).map Located.candidate := by
  unfold located
  rw [List.filter_flatten, List.map_flatten, List.map_map]
  congr 1
  refine List.ext_getElem? fun segmentOrd => ?_
  rw [List.getElem?_mapIdx, List.getElem?_map, List.getElem?_mapIdx, Option.map_map]
  exact congrArg (fun f => Option.map f segments[segmentOrd]?)
    (funext fun segment => candidates_eq admission segmentOrd segment)

/-! ## The order of the result -/

/-- No two live documents that match have the same key. -/
def DistinctKeys (segments : List Segment) : Prop :=
  ((located segments).map Located.key).Nodup

/-- With distinct keys the candidates are ordered as the claimed order says. -/
theorem before_iff_candidate_ge {left right : Located} (h : left.key = right.key → left = right) :
    left.Before right ↔ left.candidate ≥ right.candidate := by
  have hrank : right.candidate ≤ left.candidate ↔
      right.candidate.rank.order < left.candidate.rank.order ∨
        right.candidate.rank = left.candidate.rank ∧
          (ofLex right.candidate).2 ≤ (ofLex left.candidate).2 := Prod.Lex.le_iff
  have horder : right.candidate.rank.order < left.candidate.rank.order ↔
      candidateScoreBucket right.score < candidateScoreBucket left.score ∨
        candidateScoreBucket right.score = candidateScoreBucket left.score ∧
          (left.key < right.key ∨ left.key = right.key ∧
            toLex (OrderDual.toDual right.address.1, OrderDual.toDual right.address.2) <
              toLex (OrderDual.toDual left.address.1, OrderDual.toDual left.address.2)) := by
    refine Prod.Lex.lt_iff.trans (or_congr Iff.rfl (and_congr Iff.rfl ?_))
    exact Prod.Lex.lt_iff.trans (or_congr OrderDual.toDual_lt_toDual
      (and_congr (OrderDual.toDual_inj.trans eq_comm) Iff.rfl))
  have hbefore : left.Before right ↔
      candidateScoreBucket right.score < candidateScoreBucket left.score ∨
        candidateScoreBucket left.score = candidateScoreBucket right.score ∧
          left.key ≤ right.key := Iff.rfl
  show _ ↔ right.candidate ≤ left.candidate
  rw [hbefore, hrank, horder]
  by_cases hkey : left.key = right.key
  · obtain rfl := h hkey
    simp
  · have hne : right.candidate.rank ≠ left.candidate.rank :=
      fun heq => hkey (congrArg CandidateRank.key heq).symm
    constructor
    · rintro (hlt | ⟨heq, hle⟩)
      · exact .inl (.inl hlt)
      · exact .inl (.inr ⟨heq.symm, .inl (lt_of_le_of_ne hle hkey)⟩)
    · rintro ((hlt | ⟨heq, hlt | ⟨hsame, -⟩⟩) | ⟨heq, -⟩)
      · exact .inl hlt
      · exact .inr ⟨heq.symm, hlt.le⟩
      · exact absurd hsame hkey
      · exact absurd heq hne

/-- The best candidates of some documents are their candidates in the claimed order. -/
theorem best_map_candidate {documents : List Located} (h : (documents.map Located.key).Nodup)
    (limit : Nat) :
    best limit (documents.map Located.candidate) =
      ((documents.insertionSort Located.Before).take limit).map Located.candidate := by
  unfold best
  rw [List.map_take, List.map_insertionSort Located.Before (· ≥ ·)]
  intro left hleft right hright
  exact before_iff_candidate_ge fun hkey => List.inj_on_of_nodup_map h hleft hright hkey

theorem candidate_reported (found : Located) :
    (candidateBucketScore found.candidate.score,
      (found.candidate.rank.segmentOrd, found.candidate.rank.doc)) = found.reported := by
  have hscore : found.candidate.score = found.score := by
    show F32.mk (UInt32.ofNat found.score.bits.toNat) = found.score
    rw [UInt32.ofNat_toNat]
  rw [hscore]
  rfl

/-! ## The search -/

section Search

variable {segments : List Segment} {limit : Nat}

/-- Each traversal looks at every document of its segment once. -/
abbrev TraversesAll (segments : List Segment) (traversals : List Traversal) : Prop :=
  List.Forall₂ Traverses segments traversals

theorem searchCandidates_eq (hlimit : 0 < limit) (hscored : ∀ segment ∈ segments, Scored segment)
    (hkeys : DistinctKeys segments) (admission : Option CandidateAdmission)
    {traversals : List Traversal} (htraversals : TraversesAll segments traversals) :
    searchCandidates limit admission segments traversals =
      (topDocuments (admissionAdmits admission) limit segments).map Located.reported := by
  obtain ⟨hlength, htraverses⟩ := List.forall₂_iff_get.mp htraversals
  have hheaps : ((segments.zip traversals).mapIdx fun segmentOrd parts =>
      (collectSegment limit admission segmentOrd parts.1 parts.2).heap) =
      (segments.mapIdx (candidates admission)).map (best limit) := by
    refine List.ext_getElem (by simp [hlength]) fun i hleft hright => ?_
    rw [List.getElem_mapIdx, List.getElem_map, List.getElem_mapIdx, List.getElem_zip]
    have hi : i < segments.length := by simpa using hright
    exact collectSegment_heap hlimit (hscored _ (List.getElem_mem hi)) admission i
      (htraverses i hi (hlength ▸ hi))
  have hmerge : ((((segments.mapIdx (candidates admission)).map (best limit)).flatten).insertionSort
      (· ≥ ·)).take limit = best limit (segments.mapIdx (candidates admission)).flatten :=
    take_insertionSort_flatMap (· ≥ ·) (segments.mapIdx (candidates admission)) limit
  have hfiltered : (((located segments).filter fun found =>
      admissionAdmits admission found.document.stored).map Located.key).Nodup :=
    hkeys.sublist (List.filter_sublist.map _)
  unfold searchCandidates mergeFruits
  rw [hheaps, hmerge, flatten_candidates, best_map_candidate hfiltered, List.map_map]
  exact List.map_congr_left fun found _ => candidate_reported found

/-- A reported address leads back to the document. -/
theorem storedDocument_of_located {found : Located} (h : found ∈ located segments) :
    storedDocument segments found.address = some found.document.stored := by
  obtain ⟨part, hpart, hfound⟩ := List.mem_flatten.mp h
  obtain ⟨segmentOrd, hord, rfl⟩ := List.mem_mapIdx.mp hpart
  obtain ⟨doc, -, hlocate⟩ := List.mem_filterMap.mp hfound
  obtain ⟨document, hdocument, hlocate⟩ := Option.bind_eq_some_iff.mp hlocate
  split at hlocate
  · obtain ⟨score, -, rfl⟩ := Option.map_eq_some_iff.mp hlocate
    unfold storedDocument
    rw [List.getElem?_eq_getElem hord, Option.bind_some, hdocument, Option.map_some]
  · cases hlocate

theorem eq_of_before {documents : List Located} (hkeys : (documents.map Located.key).Nodup) :
    ∀ left ∈ documents, ∀ right ∈ documents, left.Before right → right.Before left →
      left = right := by
  intro left hleft right hright hbefore hafter
  refine List.inj_on_of_nodup_map hkeys hleft hright ?_
  have hbefore : candidateScoreBucket right.score < candidateScoreBucket left.score ∨
    candidateScoreBucket left.score = candidateScoreBucket right.score ∧
      left.key ≤ right.key := hbefore
  have hafter : candidateScoreBucket left.score < candidateScoreBucket right.score ∨
    candidateScoreBucket right.score = candidateScoreBucket left.score ∧
      right.key ≤ left.key := hafter
  omega

/-- A probe that is wholly admitted is the filtered result. -/
theorem topDocuments_of_probe {admits : StoredDocument → Bool}
    (h : ∀ found ∈ topDocuments (fun _ => true) limit segments,
      admits found.document.stored = true) :
    topDocuments admits limit segments = topDocuments (fun _ => true) limit segments := by
  have htrue : topDocuments (fun _ => true) limit segments =
      ((located segments).insertionSort Located.Before).take limit := by
    unfold topDocuments
    rw [List.filter_eq_self.mpr fun _ _ => rfl]
  rw [htrue] at h ⊢
  unfold topDocuments
  rw [filter_insertionSort Located.Before, take_filter_of_forall h]

/-- The documents of the result do not depend on the layout. -/
theorem topDocuments_content (admits : StoredDocument → Bool) {segments' : List Segment}
    (hkeys : DistinctKeys segments)
    (hcontent : ((located segments').map Located.content).Perm
      ((located segments).map Located.content)) :
    (topDocuments admits limit segments').map Located.content =
      (topDocuments admits limit segments).map Located.content := by
  have hmap : ∀ segments, (topDocuments admits limit segments).map Located.content =
      ((((located segments).map Located.content).filter fun content => admits content.2.2).insertionSort
        ContentBefore).take limit := by
    intro segments
    unfold topDocuments
    rw [List.map_take, List.map_insertionSort Located.Before ContentBefore _ _ fun _ _ _ _ => Iff.rfl,
      List.filter_map]
    rfl
  rw [hmap, hmap]
  congr 1
  refine insertionSort_eq_of_perm ContentBefore ?_ (hcontent.filter _)
  intro left hleft right hright hbefore hafter
  obtain ⟨first, hfirst, rfl⟩ := List.mem_map.mp
    (hcontent.mem_iff.mp (List.mem_of_mem_filter hleft))
  obtain ⟨second, hsecond, rfl⟩ := List.mem_map.mp
    (hcontent.mem_iff.mp (List.mem_of_mem_filter hright))
  rw [eq_of_before hkeys first hfirst second hsecond hbefore hafter]

/-- For every layout, traversal, admission and positive limit: the result is the brute-force one,
    the filtered search alone gives the same, another layout of the same documents gives the same
    documents, and no document that ties with or beats a kept one is below the threshold. -/
theorem collectTopDocs_exact {segments : List Segment} {probe filtered : List Traversal}
    (hprobe : TraversesAll segments probe) (hfiltered : TraversesAll segments filtered)
    (hscored : ∀ segment ∈ segments, Scored segment) (hkeys : DistinctKeys segments)
    (admission : CandidateAdmission) {limit : Nat} (hlimit : 1 ≤ limit) :
    collectTopDocsWithEligibility segments probe filtered admission limit =
      (topDocuments admission.admits limit segments).map Located.reported ∧
    searchCandidates limit (some admission) segments filtered =
      (topDocuments admission.admits limit segments).map Located.reported ∧
    (∀ segments', ((located segments').map Located.content).Perm
        ((located segments).map Located.content) →
      (topDocuments admission.admits limit segments').map Located.content =
        (topDocuments admission.admits limit segments).map Located.content) ∧
    ∀ score worst : F32, score.IsScore → worst.IsScore →
      candidateScoreBucket worst ≤ candidateScoreBucket score →
      F32.lt (candidateBucketThreshold (candidateScoreBucket worst)) score = true := by
  have hfilteredSearch := searchCandidates_eq hlimit hscored hkeys (some admission) hfiltered
  have hprobeSearch := searchCandidates_eq hlimit hscored hkeys none hprobe
  refine ⟨?_, hfilteredSearch, fun _ => topDocuments_content admission.admits hkeys,
    fun _ _ hscore hworst => candidateBucketThreshold_lt hscore hworst⟩
  unfold collectTopDocsWithEligibility
  rw [if_neg (by omega)]
  dsimp only
  split
  · -- The probe is reused: every document in it is eligible, and there is no path predicate.
    rename_i hreuse
    rw [Bool.and_eq_true, Bool.or_eq_true] at hreuse
    obtain ⟨hmatcher, heligible⟩ := hreuse
    have hadmits : ∀ stored, admission.admits stored =
        admission.eligibility.matchesDocument admission.hasIgnoredField stored := by
      intro stored
      unfold CandidateAdmission.admits
      rw [Option.isNone_iff_eq_none.mp hmatcher]
      exact Bool.and_true _
    rw [hprobeSearch]
    refine congrArg (List.map Located.reported) (topDocuments_of_probe ?_).symm
    intro found hfound
    have hlocated : found ∈ located segments :=
      List.mem_of_mem_filter ((List.mem_insertionSort _).mp (List.mem_of_mem_take hfound))
    rw [hadmits]
    rcases heligible with hunrestricted | hall
    · unfold CandidateEligibility.matchesDocument
      rw [if_pos hunrestricted]
    · rw [hprobeSearch] at hall
      have hfound := List.all_eq_true.mp hall found.reported (List.mem_map_of_mem hfound)
      have hstored : storedDocument segments found.reported.2 = some found.document.stored :=
        storedDocument_of_located hlocated
      rw [hstored] at hfound
      exact hfound
  · exact hfilteredSearch

end Search

/-! Two segments; the first document has the best score and is ignored. -/

private def sampleDocument (bits : UInt32) (key : Nat) (ignored : Nat) : SegmentDocument :=
  ⟨true, some ⟨bits⟩, some key,
    ⟨some "a.rs".toList, some "rust".toList, some key, some ignored⟩⟩

private def sampleSegments : List Segment :=
  [[sampleDocument 0x40000000 3 1, sampleDocument 0x3f800000 2 0], [sampleDocument 0x3f800001 1 0]]

private def sampleTraversals : List Traversal := [[(1, false), (0, true)], [(0, false)]]

private def visibleOnly : CandidateAdmission :=
  ⟨none, ⟨false, none, none, none, none, none⟩, true, false⟩

theorem collectTopDocs_exact_sample :
    collectTopDocsWithEligibility sampleSegments sampleTraversals sampleTraversals visibleOnly 1 =
      [(⟨0x3f800000⟩, (1, 0))] := by
  have htraversals : TraversesAll sampleSegments sampleTraversals := by
    refine .cons ?_ (.cons ?_ .nil)
    · unfold Traverses
      decide
    · unfold Traverses
      decide
  have hscored : ∀ segment ∈ sampleSegments, Scored segment := by
    intro segment hsegment document hdocument hlive score hscore
    have hbits : ∃ bits key ignored, document = sampleDocument bits key ignored ∧
        bits ≤ 0x7f800000 := by
      simp only [sampleSegments, List.mem_cons, List.not_mem_nil, or_false] at hsegment
      rcases hsegment with rfl | rfl
      · simp only [List.mem_cons, List.not_mem_nil, or_false] at hdocument
        rcases hdocument with rfl | rfl
        · exact ⟨_, _, _, rfl, by decide⟩
        · exact ⟨_, _, _, rfl, by decide⟩
      · obtain rfl := List.mem_singleton.mp hdocument
        exact ⟨_, _, _, rfl, by decide⟩
    obtain ⟨bits, key, ignored, rfl, hle⟩ := hbits
    obtain rfl := Option.some.inj hscore
    exact hle
  have hkeys : DistinctKeys sampleSegments := by
    unfold DistinctKeys
    decide
  rw [(collectTopDocs_exact htraversals htraversals hscored hkeys visibleOnly (Nat.le_refl 1)).1]
  decide +kernel

end Ivygrep.Native
