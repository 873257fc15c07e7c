import Ivygrep.Native.SemanticRefill

/-!
# The exact scores of all eligible keys

The heap of a store holds the first entries of the ranking of what was scored so far, and so does
the merged list of both stores. A key that a truncation drops has enough better keys above it, in
this batch and in every later one.
-/

namespace Ivygrep.Native

open ForStd

variable {S ε : Type} [LinearOrder S]

/-! ## The order of the matches -/

/-- The relation that matches are sorted by. -/
def Ahead (left right : VectorMatch S) : Prop := compareMatches left right ≠ .gt

instance : DecidableRel (@Ahead S _) := fun left right =>
  inferInstanceAs (Decidable (compareMatches left right ≠ .gt))

theorem ahead_iff {left right : VectorMatch S} : Ahead left right ↔
    right.score < left.score ∨
      left.score = right.score ∧ left.key.toNat ≤ right.key.toNat := by
  unfold Ahead compareMatches
  rw [Ne, Ordering.then_eq_gt, compare_gt_iff_gt, compare_eq_iff_eq, Std.compare_eq_gt,
    UInt64.lt_iff_toNat_lt, ← Nat.not_lt]
  grind

instance : IsTrans (VectorMatch S) Ahead where
  trans a b c hab hbc := by
    rw [ahead_iff] at *
    grind

instance : Std.Total (@Ahead S _) where
  total a b := by
    rw [ahead_iff, ahead_iff]
    grind

instance : Std.Antisymm (@Ahead S _) where
  antisymm a b hab hba := by
    rw [ahead_iff] at hab hba
    have hscore : a.score = b.score := by grind
    have hkey : a.key = b.key := UInt64.toNat_inj.mp (by grind)
    cases a
    cases b
    cases hscore
    cases hkey
    rfl

/-- The heap's order is the one that matches are sorted by. -/
theorem compareRanked_eq_gt {ranked worst : VectorMatch S} :
    compareRanked ranked worst = .gt ↔ ¬ Ahead worst ranked := by
  unfold Ahead
  rw [not_not]
  exact Iff.rfl

/-- The ranking of matches: the best of every key, best first. -/
def matchRanking (hits : List (VectorMatch S)) : List (VectorMatch S) :=
  ranking Ahead VectorMatch.key hits

theorem mergeTopMatches_eq (best more : List (VectorMatch S)) (limit : Nat) :
    mergeTopMatches best more limit = (matchRanking (best ++ more)).take limit := by
  rw [mergeTopMatches, retainFirst_nil]
  rfl

/-! ## One store -/

/-- A store that answers, with the scores of its keys. -/
def QueryStore.ofScores (score : UInt64 → Option S) : QueryStore S ε where
  validateVector := .ok ()
  score key := .ok (score key)

/-- What a store knows of some keys. -/
def storeHits (score : UInt64 → Option S) (keys : List UInt64) : List (VectorMatch S) :=
  keys.filterMap fun key => (score key).map fun score => ⟨key, score⟩

omit [LinearOrder S] in
theorem mem_storeHits {score : UInt64 → Option S} {keys : List UInt64} {hit : VectorMatch S} :
    hit ∈ storeHits score keys ↔ hit.key ∈ keys ∧ score hit.key = some hit.score := by
  unfold storeHits
  rw [List.mem_filterMap]
  constructor
  · rintro ⟨key, hkey, hhit⟩
    obtain ⟨value, hvalue, rfl⟩ := Option.map_eq_some_iff.mp hhit
    exact ⟨hkey, hvalue⟩
  · rintro ⟨hkey, hscore⟩
    exact ⟨hit.key, hkey, by rw [hscore]; rfl⟩

omit [LinearOrder S] in
theorem storeHits_concat (score : UInt64 → Option S) (keys : List UInt64) (key : UInt64) :
    storeHits score (keys ++ [key]) =
      storeHits score keys ++ ((score key).map fun score => ⟨key, score⟩).toList := by
  unfold storeHits
  rw [List.filterMap_append]
  congr 1

namespace TopMatches

variable {count : Nat} {seen : List (VectorMatch S)} {state : TopMatches S}

/-- The heap has the best of what was scored, and the set has the keys of the heap. -/
structure Best (count : Nat) (seen : List (VectorMatch S)) (state : TopMatches S) : Prop where
  top : state.top = (matchRanking seen).take count
  retained : ∀ key, key ∈ state.retained ↔ key ∈ state.top.map VectorMatch.key

theorem Best.nodup (h : Best count seen state) : (state.top.map VectorMatch.key).Nodup := by
  rw [h.top]
  exact (ranking_nodup Ahead VectorMatch.key seen).sublist
    ((List.take_sublist count _).map VectorMatch.key)

theorem Best.sorted (h : Best count seen state) : state.top.Pairwise Ahead := by
  rw [h.top]
  exact (ranking_sorted seen).sublist (List.take_sublist count _)

theorem mem_keys_insertLast {x : VectorMatch S} {l : List (VectorMatch S)} {key : UInt64} :
    key ∈ (insertLast Ahead x l).map VectorMatch.key ↔
      key = x.key ∨ key ∈ l.map VectorMatch.key := by
  induction l with
  | nil => simp [insertLast]
  | cons b l ih =>
    unfold insertLast
    split
    · rw [List.map_cons, List.mem_cons, ih, List.map_cons, List.mem_cons]
      exact or_left_comm
    · rw [List.map_cons, List.mem_cons]

/-- A match of a new key leaves the first entries of the longer ranking. -/
theorem Best.offer (h : Best count seen state) {ranked : VectorMatch S}
    (hnew : ranked.key ∉ state.retained) :
    Best count (seen ++ [ranked]) (state.offer count ranked) := by
  have hkeys : ∀ b ∈ state.top, b.key ≠ ranked.key := by
    intro b hb heq
    exact hnew ((h.retained _).mpr (heq ▸ List.mem_map_of_mem hb))
  have htop : (matchRanking (seen ++ [ranked])).take count =
      (insertLast Ahead ranked state.top).take count := by
    rw [matchRanking, ranking_concat, ← take_place (ranking_nodup Ahead VectorMatch.key seen)]
    show (place Ahead VectorMatch.key ranked ((matchRanking seen).take count)).take count = _
    rw [← h.top, place_eq_insertLast hkeys]
  have hlength : state.top.length ≤ count := by
    rw [h.top]
    exact List.length_take_le _ _
  unfold TopMatches.offer
  split
  · next hroom =>
    refine ⟨?_, fun key => ?_⟩
    · rw [htop, List.take_of_length_le]
      · rfl
      · rw [length_insertLast]
        exact hroom
    · exact List.mem_cons.trans ((or_congr_right (h.retained key)).trans mem_keys_insertLast.symm)
  next hfull =>
  have hcount : state.top.length = count := by omega
  rcases List.eq_nil_or_concat state.top with hempty | ⟨better, worst, hworst⟩
  · -- A heap without room for any entry.
    rw [hempty] at htop hcount ⊢
    refine ⟨?_, h.retained⟩
    rw [htop, ← hcount]
    exact hempty
  rw [List.concat_eq_append] at hworst
  rw [hworst, List.getLast?_concat]
  rw [hworst] at htop hkeys hcount
  dsimp only
  split
  · next hbetter =>
    have hnot := compareRanked_eq_gt.mp hbetter
    have hnodup := h.nodup
    rw [hworst, List.map_append, List.map_singleton, List.nodup_append] at hnodup
    refine ⟨?_, fun key => ?_⟩
    · rw [htop, insertLast_concat_of_not Ahead hnot, List.take_append_of_le_length,
        List.take_of_length_le]
      · show insertLast Ahead ranked state.top.dropLast = _
        rw [hworst, List.dropLast_concat]
      · rw [length_insertLast, ← hcount, List.length_append, List.length_singleton]
      · rw [length_insertLast, ← hcount, List.length_append, List.length_singleton]
    · show key ∈ ranked.key :: state.retained.filter (· ≠ worst.key) ↔
        key ∈ (insertLast Ahead ranked state.top.dropLast).map VectorMatch.key
      rw [mem_keys_insertLast, List.mem_cons, List.mem_filter, h.retained, hworst,
        List.dropLast_concat, List.map_append, List.mem_append, List.map_singleton,
        List.mem_singleton, decide_eq_true_iff]
      apply or_congr_right
      constructor
      · rintro ⟨hmem | rfl, hne⟩
        · exact hmem
        · exact absurd rfl hne
      · intro hmem
        exact ⟨.inl hmem, fun heq => hnodup.2.2 key hmem _ (List.mem_singleton_self _) heq⟩
  · next hworse =>
    have hahead : Ahead worst ranked := not_not.mp (mt compareRanked_eq_gt.mpr hworse)
    refine ⟨?_, h.retained⟩
    rw [htop, take_insertLast_of_forall Ahead _ (by rw [hcount]), ← hcount, List.take_length, hworst]
    intro b hb
    have hsorted := h.sorted
    rw [hworst, List.pairwise_append] at hsorted
    rcases List.mem_append.mp (List.mem_of_mem_take hb) with hmem | hmem
    · exact trans_of Ahead (hsorted.2.2 b hmem worst (List.mem_singleton_self _)) hahead
    · rw [List.mem_singleton.mp hmem]
      exact hahead

/-- A key that the heap has would be scored as before. -/
theorem matchRanking_concat_of_mem {hit : VectorMatch S} {seen : List (VectorMatch S)}
    (h : hit ∈ seen) : matchRanking (seen ++ [hit]) = matchRanking seen := by
  apply ranking_congr
  intro x
  rw [List.mem_append, List.mem_singleton]
  constructor
  · rintro (hx | rfl)
    · exact hx
    · exact h
  · exact .inl

theorem mem_of_mem_matchRanking {hit : VectorMatch S} {seen : List (VectorMatch S)}
    (h : hit ∈ matchRanking seen) : hit ∈ seen := (mem_ranking_iff.mp h).1

theorem Best.scoreKey {score : UInt64 → Option S} {keys : List UInt64}
    (h : Best count (storeHits score keys) state) (key : UInt64) :
    ∃ next, state.scoreKey (QueryStore.ofScores (ε := ε) score) count key = .ok next ∧
      Best count (storeHits score (keys ++ [key])) next := by
  rw [storeHits_concat]
  unfold TopMatches.scoreKey
  split
  · next hretained =>
    refine ⟨state, rfl, ?_⟩
    obtain ⟨hit, hhit, rfl⟩ := List.mem_map.mp ((h.retained key).mp hretained)
    rw [h.top] at hhit
    have hold := mem_of_mem_matchRanking (List.mem_of_mem_take hhit)
    rw [(mem_storeHits.mp hold).2]
    refine ⟨?_, h.retained⟩
    rw [h.top]
    congr 1
    exact (matchRanking_concat_of_mem hold).symm
  · next hnew =>
    cases hscore : score key with
    | none =>
      refine ⟨state, ?_, ?_⟩
      · show (Except.ok (score key)).map _ = _
        rw [hscore]
        rfl
      · exact (List.append_nil (storeHits score keys)).symm ▸ h
    | some value =>
      refine ⟨state.offer count ⟨key, value⟩, ?_, h.offer hnew⟩
      show (Except.ok (score key)).map _ = _
      rw [hscore]
      rfl

theorem Best.scoreKeys {score : UInt64 → Option S} {done : List UInt64}
    (h : Best count (storeHits score done) state) (keys : List UInt64) :
    ∃ next, scoreKeys (QueryStore.ofScores (ε := ε) score) count state keys = .ok next ∧
      Best count (storeHits score (done ++ keys)) next := by
  induction keys generalizing done state with
  | nil =>
    rw [List.append_nil]
    exact ⟨state, rfl, h⟩
  | cons key keys ih =>
    obtain ⟨middle, hmiddle, hbest⟩ := h.scoreKey (ε := ε) key
    obtain ⟨next, hnext, hlast⟩ := ih hbest
    refine ⟨next, ?_, ?_⟩
    · rw [TopMatches.scoreKeys, hmiddle]
      exact hnext
    · rw [List.append_cons]
      exact hlast

end TopMatches

/-- One store gives the first entries of the ranking of all its scores. -/
theorem scoreManyTopKChecked_eq (score : UInt64 → Option S) (keys : List UInt64) (count : Nat) :
    (QueryStore.ofScores (ε := ε) score).scoreManyTopKChecked keys count =
      .ok ((matchRanking (storeHits score keys)).take count) := by
  unfold QueryStore.scoreManyTopKChecked
  split
  · next hzero => rw [hzero, List.take_zero]
  · have hempty : TopMatches.Best count (storeHits score []) ⟨[], []⟩ :=
      ⟨(List.take_nil).symm, fun key => by simp⟩
    obtain ⟨state, hstate, hbest⟩ := hempty.scoreKeys (ε := ε) keys
    show (TopMatches.scoreKeys _ count ⟨[], []⟩ keys).map _ = _
    rw [hstate]
    show Except.ok (sortMatches state.top) = _
    rw [List.nil_append] at hbest
    rw [← hbest.top]
    congr 1
    exact hbest.sorted.insertionSort_eq

/-! ## Both stores -/

/-- What the stores know of some keys. -/
def allHits (stores : List (UInt64 → Option S)) (keys : List UInt64) : List (VectorMatch S) :=
  stores.flatMap fun score => storeHits score keys

/-- A truncated part may be merged into a truncated list. -/
theorem take_matchRanking_append (seen more : List (VectorMatch S)) (limit : Nat) :
    (matchRanking ((matchRanking seen).take limit ++ (matchRanking more).take limit)).take limit =
      (matchRanking (seen ++ more)).take limit := by
  have hswap : ∀ left right : List (VectorMatch S),
      matchRanking (left ++ right) = matchRanking (right ++ left) := by
    intro left right
    apply ranking_congr
    intro x
    rw [List.mem_append, List.mem_append]
    exact or_comm
  calc (matchRanking ((matchRanking seen).take limit ++ (matchRanking more).take limit)).take limit
      = (matchRanking (seen ++ (matchRanking more).take limit)).take limit :=
        take_ranking_append _ _ _
    _ = (matchRanking ((matchRanking more).take limit ++ seen)).take limit := by rw [hswap]
    _ = (matchRanking (more ++ seen)).take limit := take_ranking_append _ _ _
    _ = (matchRanking (seen ++ more)).take limit := by rw [hswap]

theorem scoreStore_eq (score : UInt64 → Option S) (keys : List UInt64) (limit : Nat)
    (seen : List (VectorMatch S)) :
    scoreStore keys limit (QueryStore.ofScores (ε := ε) score) ((matchRanking seen).take limit) =
      .ok ((matchRanking (seen ++ storeHits score keys)).take limit) := by
  rw [scoreStore, scoreManyTopKChecked_eq]
  show Except.ok (mergeTopMatches _ _ limit) = _
  rw [mergeTopMatches_eq, take_matchRanking_append]

/-- The stores of a search. -/
def openStores (scores : Option (UInt64 → Option S) × Option (UInt64 → Option S)) :
    Option (QueryStore S ε) × Option (QueryStore S ε) :=
  (scores.1.map QueryStore.ofScores, scores.2.map QueryStore.ofScores)

variable {scores : Option (UInt64 → Option S) × Option (UInt64 → Option S)}

/-- One batch brings what both stores know of its keys. -/
theorem scoreBatch_eq (keys : List UInt64) (limit : Nat) (seen : List (VectorMatch S)) :
    scoreBatch keys limit (openStores (ε := ε) scores) ((matchRanking seen).take limit) =
      .ok ((matchRanking (seen ++ allHits [scores.1, scores.2].reduceOption keys)).take limit) := by
  have hstores : ∀ (stores : List (UInt64 → Option S)) (seen : List (VectorMatch S)),
      (stores.map QueryStore.ofScores).foldlM (fun best (store : QueryStore S ε) =>
          scoreStore keys limit store best) ((matchRanking seen).take limit) =
        .ok ((matchRanking (seen ++ allHits stores keys)).take limit) := by
    intro stores
    induction stores with
    | nil =>
      intro seen
      rw [allHits, List.flatMap_nil, List.append_nil]
      rfl
    | cons score stores ih =>
      intro seen
      rw [List.map_cons, List.foldlM_cons, scoreStore_eq]
      show List.foldlM _ _ _ = _
      rw [ih, allHits, allHits, List.flatMap_cons, List.append_assoc]
  have hopen : [(openStores (ε := ε) scores).1, (openStores (ε := ε) scores).2].reduceOption =
      [scores.1, scores.2].reduceOption.map QueryStore.ofScores := by
    obtain ⟨_ | hash, _ | neural⟩ := scores <;> rfl
  rw [scoreBatch, hopen, hstores]

theorem scoreBatches_spec (batches : List (List UInt64)) (limit : Nat) :
    scoreBatches batches limit (openStores (ε := ε) scores) =
      .ok ((matchRanking (batches.flatMap
        (allHits [scores.1, scores.2].reduceOption))).take limit) := by
  have hbatches : ∀ seen : List (VectorMatch S),
      batches.foldlM (fun best keys => scoreBatch keys limit (openStores (ε := ε) scores) best)
          ((matchRanking seen).take limit) =
        .ok ((matchRanking (seen ++ batches.flatMap
          (allHits [scores.1, scores.2].reduceOption))).take limit) := by
    induction batches with
    | nil =>
      intro seen
      rw [List.flatMap_nil, List.append_nil]
      rfl
    | cons keys batches ih =>
      intro seen
      rw [List.foldlM_cons, scoreBatch_eq]
      show List.foldlM _ _ _ = _
      rw [ih, List.flatMap_cons, List.append_assoc]
  have hall := hbatches []
  rwa [show matchRanking ([] : List (VectorMatch S)) = [] from rfl, List.take_nil] at hall

/-! ## Brute force -/

/-- The best score of a key over the stores. -/
def bestScore (scores : Option (UInt64 → Option S) × Option (UInt64 → Option S))
    (key : UInt64) : Option S :=
  ([scores.1, scores.2].reduceOption.filterMap fun score => score key).max?

/-- Every key that some store has, once and with its best score, best first. -/
def exactMatches (scores : Option (UInt64 → Option S) × Option (UInt64 → Option S))
    (eligible : List UInt64) : List (VectorMatch S) :=
  sortMatches (eligible.dedup.filterMap fun key =>
    (bestScore scores key).map fun score => ⟨key, score⟩)

theorem bestScore_eq_some {key : UInt64} {score : S} : bestScore scores key = some score ↔
    (∃ store ∈ [scores.1, scores.2].reduceOption, store key = some score) ∧
      ∀ store ∈ [scores.1, scores.2].reduceOption, ∀ other, store key = some other →
        other ≤ score := by
  unfold bestScore
  rw [List.max?_eq_some_iff, List.mem_filterMap]
  apply and_congr_right
  intro _
  simp only [List.mem_filterMap]
  constructor
  · intro h store hstore other hother
    exact h other ⟨store, hstore, hother⟩
  · rintro h other ⟨store, hstore, hother⟩
    exact h store hstore other hother

omit [LinearOrder S] in
theorem mem_allHits {stores : List (UInt64 → Option S)} {keys : List UInt64}
    {hit : VectorMatch S} : hit ∈ allHits stores keys ↔
      hit.key ∈ keys ∧ ∃ store ∈ stores, store hit.key = some hit.score := by
  unfold allHits
  simp only [List.mem_flatMap, mem_storeHits]
  constructor
  · rintro ⟨store, hstore, hkey, hscore⟩
    exact ⟨hkey, store, hstore, hscore⟩
  · rintro ⟨hkey, store, hstore, hscore⟩
    exact ⟨store, hstore, hkey, hscore⟩

theorem mem_exactMatches {eligible : List UInt64} {hit : VectorMatch S} :
    hit ∈ exactMatches scores eligible ↔
      hit.key ∈ eligible ∧ bestScore scores hit.key = some hit.score := by
  unfold exactMatches sortMatches
  rw [List.mem_insertionSort]
  have hhits : hit ∈ storeHits (bestScore scores) eligible.dedup ↔
      hit.key ∈ eligible.dedup ∧ bestScore scores hit.key = some hit.score := mem_storeHits
  rw [List.mem_dedup] at hhits
  exact hhits

theorem exactMatches_nodup (eligible : List UInt64) :
    ((exactMatches scores eligible).map VectorMatch.key).Nodup := by
  have hkeys : ∀ keys : List UInt64, ((keys.filterMap fun key =>
      (bestScore scores key).map fun score => (⟨key, score⟩ : VectorMatch S)).map
        VectorMatch.key).Sublist keys := by
    intro keys
    induction keys with
    | nil => exact .slnil
    | cons key keys ih =>
      cases hscore : bestScore scores key with
      | none =>
        rw [List.filterMap_cons_none (by rw [hscore]; rfl)]
        exact ih.cons key
      | some score =>
        rw [List.filterMap_cons_some (b := ⟨key, score⟩) (by rw [hscore]; rfl)]
        exact ih.cons_cons key
  unfold exactMatches sortMatches
  have hperm := List.perm_insertionSort (r := fun left right : VectorMatch S =>
    compareMatches left right ≠ .gt) (eligible.dedup.filterMap fun key =>
      (bestScore scores key).map fun score => ⟨key, score⟩)
  exact (hperm.map VectorMatch.key).nodup_iff.mpr
    ((List.nodup_dedup eligible).sublist (hkeys eligible.dedup))

/-- The ranking of all hits is the list of the best scores. -/
theorem matchRanking_allHits (eligible : List UInt64) :
    matchRanking (allHits [scores.1, scores.2].reduceOption eligible) =
      exactMatches scores eligible := by
  have hperm : (ranking Ahead VectorMatch.key
      (allHits [scores.1, scores.2].reduceOption eligible)).Perm (exactMatches scores eligible) := by
    rw [List.perm_ext_iff_of_nodup (ranking_nodup Ahead VectorMatch.key _).of_map
      (exactMatches_nodup eligible).of_map]
    intro hit
    rw [mem_ranking_iff, mem_exactMatches, bestScore_eq_some, mem_allHits, and_assoc]
    apply and_congr_right
    intro hkey
    apply and_congr_right
    intro _
    -- Among the scores of one key, ahead means at least as high.
    constructor
    · intro hbest store hstore other hother
      have hahead := hbest ⟨hit.key, other⟩ (mem_allHits.mpr ⟨hkey, store, hstore, hother⟩) rfl
      rw [ahead_iff] at hahead
      rcases hahead with hlt | ⟨heq, -⟩
      · exact le_of_lt hlt
      · exact le_of_eq heq.symm
    · rintro hbest other hother heq
      obtain ⟨-, store, hstore, hscore⟩ := mem_allHits.mp hother
      rw [heq] at hscore
      rw [ahead_iff, heq]
      rcases lt_or_eq_of_le (hbest store hstore other.score hscore) with hlt | hsame
      · exact .inl hlt
      · exact .inr ⟨hsame.symm, Nat.le_refl _⟩
  exact hperm.eq_of_pairwise (fun _ _ _ _ hab hba => antisymm_of Ahead hab hba)
    (ranking_sorted _) (List.pairwise_insertionSort Ahead _)

/-- For all eligible keys in any batches, for any stores and any limit: the search ends with the
    first `limit` of the best scores of the keys that some store has. -/
theorem scoreBatches_eq (scores : Option (UInt64 → Option S) × Option (UInt64 → Option S))
    (batches : List (List UInt64)) (limit : Nat) :
    scoreBatches batches limit (openStores (ε := ε) scores) =
      .ok ((exactMatches scores batches.flatten).take limit) := by
  rw [scoreBatches_spec, ← matchRanking_allHits]
  congr 2
  apply ranking_congr
  intro hit
  simp only [List.mem_flatMap, mem_allHits, List.mem_flatten]
  constructor
  · rintro ⟨keys, hkeys, hkey, hstore⟩
    exact ⟨⟨keys, hkeys, hkey⟩, hstore⟩
  · rintro ⟨⟨keys, hkeys, hkey⟩, hstore⟩
    exact ⟨keys, hkeys, hkey, hstore⟩

end Ivygrep.Native
