import Ivygrep.Native.DefinitionCandidates
import Ivygrep.Spec.SymbolSearchCorrect

/-!
# Definition candidates fill the limit

The candidates of a list of names are compared with the first distinct chunks of the rankings of its
requests. The loops over batches and rows find the candidates of each request, whatever the size of
a batch. The limit is then filled request by request, and a chunk that an earlier request has takes
room from the others.

## Key results

- `addBatches_eq`: the candidates of each request, for batches of any size
- `returnedRanking_sublist`: what the row window leaves of a ranking
- `definitionCandidates_exact`: when a lookup returns the first distinct chunks
- `shared_chunk_displaces_candidate`: a lookup that does not
-/

namespace Ivygrep.Native.Symbols

open ForStd SymbolSearch

variable {zstd : Compression.Zstd}

/-! ## The rankings -/

/-- The candidates of a request among its rows: the first ones of distinct chunks. -/
def requestCandidates (limit : Nat) (request : DefinitionRequest)
    (rows : List (DefinitionRow zstd)) : List DefinitionCandidate :=
  ((keepFirst DefinitionRow.vectorKey rows).take (candidateLimit limit)).map fun row =>
    definitionCandidate request.query row row.chunk.text.content

section

variable (tables : Tables zstd) (skipGitignore : Bool) (limit : Nat)

/-- The ranking of a request: its first eligible distinct rows, of the best tier, in their order. -/
def requestRanking (eligible : IndexedChunk → Bool) (request : DefinitionRequest) :
    List IndexedChunk :=
  rankCandidates request (requestCandidates limit request
    ((requestRows tables skipGitignore request).filter fun row => eligible row.chunk.metadata))

/-- The ranking of the rows that the query returns. -/
def returnedRanking (eligible : Option (IndexedChunk → Bool)) (request : DefinitionRequest) :
    List IndexedChunk :=
  rankCandidates request (requestCandidates limit request
    ((returnedRows tables skipGitignore limit eligible request).filter fun row =>
      eligible.all fun eligible => eligible row.chunk.metadata))

/-- The first distinct chunks of the rankings of all requests. -/
def firstDefinitions (isXidContinue : Char → Bool) (names : List Str)
    (eligible : IndexedChunk → Bool) : List IndexedChunk :=
  (keepFirst IndexedChunk.vectorKey ((definitionRequests isXidContinue names).flatMap
    (requestRanking tables skipGitignore limit eligible))).take limit

/-- The ranking of each request, with what the query returns of it. -/
def requestLists (isXidContinue : Char → Bool) (names : List Str)
    (eligible : Option (IndexedChunk → Bool)) : List (List IndexedChunk × List IndexedChunk) :=
  (definitionRequests isXidContinue names).map fun request =>
    (requestRanking tables skipGitignore limit (eligible.getD fun _ => true) request,
      returnedRanking tables skipGitignore limit eligible request)

end

/-! ## The rows of one request -/

section

variable (limit : Nat) (eligible : Option (IndexedChunk → Bool))

/-- `addRow` on rows whose text can be read. -/
def nextEntry (entry : NameCandidates) (row : DefinitionRow zstd) : Option NameCandidates :=
  if candidateLimit limit ≤ entry.candidates.length then none
  else if eligible.any fun eligible => !eligible row.chunk.metadata then none
  else if row.vectorKey ∈ entry.seen then none
  else
    some { entry with
      candidates := entry.candidates ++
        [definitionCandidate entry.request.query row row.chunk.text.content]
      seen := row.vectorKey :: entry.seen }

theorem addRow_eq (entry : NameCandidates) (row : DefinitionRow zstd) :
    addRow limit eligible entry row = .ok (nextEntry limit eligible entry row) := by
  unfold addRow nextEntry
  rw [row.chunk.read_eq]
  split
  · rfl
  · split
    · rfl
    · split <;> rfl

/-- A request after some of its rows. -/
def scanRows (entry : NameCandidates) (rows : List (DefinitionRow zstd)) : NameCandidates :=
  rows.foldl (fun entry row => (nextEntry limit eligible entry row).getD entry) entry

/-- A request with all its candidates does not change. -/
theorem scanRows_full {entry : NameCandidates}
    (h : candidateLimit limit ≤ entry.candidates.length) (rows : List (DefinitionRow zstd)) :
    scanRows limit eligible entry rows = entry := by
  induction rows with
  | nil => rfl
  | cons row rows ih =>
    have hnext : nextEntry limit eligible entry row = none := if_pos h
    rw [scanRows, List.foldl_cons, hnext]
    exact ih

theorem scanRows_request (entry : NameCandidates) (rows : List (DefinitionRow zstd)) :
    (scanRows limit eligible entry rows).request = entry.request := by
  induction rows generalizing entry with
  | nil => rfl
  | cons row rows ih =>
    rw [scanRows, List.foldl_cons]
    refine (ih _).trans ?_
    unfold nextEntry
    repeat' split
    all_goals rfl

theorem scanRows_candidates (entry : NameCandidates) (rows : List (DefinitionRow zstd)) :
    (scanRows limit eligible entry rows).candidates = entry.candidates ++
      ((retainFirst DefinitionRow.vectorKey entry.seen (rows.filter fun row =>
        eligible.all fun eligible => eligible row.chunk.metadata)).take
          (candidateLimit limit - entry.candidates.length)).map fun row =>
            definitionCandidate entry.request.query row row.chunk.text.content := by
  induction rows generalizing entry with
  | nil => simp [scanRows, retainFirst]
  | cons row rows ih =>
    by_cases hfull : candidateLimit limit ≤ entry.candidates.length
    · rw [scanRows_full limit eligible hfull, Nat.sub_eq_zero_of_le hfull]
      simp
    · rw [scanRows, List.foldl_cons]
      refine (ih _).trans ?_
      unfold nextEntry
      rw [if_neg hfull, List.filter_cons]
      by_cases heligible : eligible.all fun eligible => eligible row.chunk.metadata
      · have hany : eligible.any (fun eligible => !eligible row.chunk.metadata) = false := by
          cases eligible <;> simp_all
        rw [if_pos heligible, hany, retainFirst]
        by_cases hseen : row.vectorKey ∈ entry.seen
        · rw [if_pos hseen]
          simp [hseen]
        · have hroom : candidateLimit limit - entry.candidates.length =
              (candidateLimit limit - (entry.candidates.length + 1)) + 1 := by omega
          rw [if_neg hseen, if_neg hseen, hroom, List.take_succ_cons]
          simp
      · have hany : eligible.any (fun eligible => !eligible row.chunk.metadata) = true := by
          cases eligible <;> simp_all
        rw [if_neg heligible, hany]
        rfl

end

/-! ## The loops -/

section

variable (tables : Tables zstd) (skipGitignore : Bool) (limit : Nat)
  (eligible : Option (IndexedChunk → Bool))

/-- A request after all rows that the query returns. -/
def scanned (request : DefinitionRequest) : NameCandidates :=
  scanRows limit eligible ⟨request, [], []⟩
    (returnedRows tables skipGitignore limit eligible request)

/-- The rows of one request in the loop. When they end it early, no others follow. -/
theorem addRows_group {lastOrdinal ordinal : Nat} {byName : List NameCandidates}
    {entry : NameCandidates} (hentry : byName[ordinal]? = some entry)
    (group : List (DefinitionRow zstd)) {rest : List (Nat × DefinitionRow zstd)}
    (hlast : ordinal = lastOrdinal → rest = []) :
    addRows limit eligible lastOrdinal byName ((group.map fun row => (ordinal, row)) ++ rest) =
      addRows limit eligible lastOrdinal
        (byName.set ordinal (scanRows limit eligible entry group)) rest := by
  induction group generalizing byName entry with
  | nil =>
    obtain ⟨hlt, rfl⟩ := List.getElem?_eq_some_iff.mp hentry
    simp [scanRows]
  | cons row group ih =>
    have hlt := (List.getElem?_eq_some_iff.mp hentry).1
    rw [List.map_cons, List.cons_append, addRows, hentry, scanRows, List.foldl_cons]
    simp only [addRow_eq]
    cases hnext : nextEntry limit eligible entry row with
    | none => exact ih hentry
    | some next =>
      have hset : (byName.set ordinal next)[ordinal]? = some next := List.getElem?_set_self hlt
      have hrest := ih hset
      rw [List.set_set] at hrest
      show (if ordinal = lastOrdinal ∧ next.candidates.length = candidateLimit limit then
        Except.ok (byName.set ordinal next) else _) = _
      split
      · next hbreak =>
        have hfull := scanRows_full limit eligible (Nat.le_of_eq hbreak.2.symm) group
        rw [hlast hbreak.1, addRows]
        exact congrArg (fun entry => Except.ok (byName.set ordinal entry)) hfull.symm
      · exact hrest

theorem addRows_batch (done : List NameCandidates) (batch : List DefinitionRequest)
    (others : List NameCandidates) :
    addRows limit eligible (done.length + batch.length - 1)
        (done ++ (batch.map fun request => ⟨request, [], []⟩) ++ others)
        (batchRows tables skipGitignore limit eligible done.length batch) =
      .ok (done ++ batch.map (scanned tables skipGitignore limit eligible) ++ others) := by
  unfold batchRows
  induction batch generalizing done with
  | nil => simp [addRows]
  | cons request batch ih =>
    have hentry : (done ++ ((request :: batch).map fun request => (⟨request, [], []⟩ :
        NameCandidates)) ++ others)[done.length]? = some ⟨request, [], []⟩ := by simp
    rw [List.zipIdx_cons, List.flatMap_cons, addRows_group limit eligible hentry]
    · have hrest := ih (done ++ [scanned tables skipGitignore limit eligible request])
      simp only [List.length_append, List.length_singleton] at hrest
      rw [show done.length + (request :: batch).length - 1 =
        done.length + 1 + batch.length - 1 by simp only [List.length_cons]; omega]
      simpa [scanned] using hrest
    · intro hlast
      obtain rfl : batch = [] := by
        rw [← List.length_eq_zero_iff]
        simp only [List.length_cons] at hlast
        omega
      rfl

theorem addBatches_eq {batchSize : Nat} (hsize : 0 < batchSize) {fuel : Nat} (batchIndex : Nat)
    {done : List NameCandidates} {pending : List DefinitionRequest} (hfuel : pending.length ≤ fuel)
    (hbase : pending ≠ [] → done.length = batchIndex * batchSize) :
    addBatches tables skipGitignore limit eligible batchSize batchIndex
        (done ++ pending.map fun request => ⟨request, [], []⟩) (chunksFuel batchSize fuel pending) =
      .ok (done ++ pending.map (scanned tables skipGitignore limit eligible)) := by
  induction fuel generalizing batchIndex done pending with
  | zero =>
    obtain rfl := List.length_eq_zero_iff.mp (Nat.le_zero.mp hfuel)
    rfl
  | succ fuel ih =>
    cases pending with
    | nil => rfl
    | cons request pending =>
      rw [chunksFuel, addBatches, ← hbase (by simp)]
      have hbatch := addRows_batch tables skipGitignore limit eligible done
        ((request :: pending).take batchSize)
        (((request :: pending).drop batchSize).map fun request => ⟨request, [], []⟩)
      rw [List.append_assoc, ← List.map_append, List.take_append_drop] at hbatch
      simp only [hbatch]
      have hshorter : ((request :: pending).drop batchSize).length ≤ fuel := by
        simp only [List.length_drop, List.length_cons] at hfuel ⊢
        omega
      -- Only the last batch can be shorter than the others.
      have hnextBase : (request :: pending).drop batchSize ≠ [] →
          (done ++ ((request :: pending).take batchSize).map
            (scanned tables skipGitignore limit eligible)).length =
              (batchIndex + 1) * batchSize := by
        intro hmore
        have hlong := List.length_pos_iff.mpr hmore
        rw [List.length_drop] at hlong
        rw [List.length_append, List.length_map, List.length_take, hbase (by simp),
          Nat.min_eq_left (by omega), Nat.succ_mul]
      rw [ih (batchIndex + 1) hshorter hnextBase, List.append_assoc, ← List.map_append,
        List.take_append_drop]

theorem rankCandidates_scanned (request : DefinitionRequest) :
    rankCandidates (scanned tables skipGitignore limit eligible request).request
        (scanned tables skipGitignore limit eligible request).candidates =
      returnedRanking tables skipGitignore limit eligible request := by
  have hcandidates := scanRows_candidates limit eligible ⟨request, [], []⟩
    (returnedRows tables skipGitignore limit eligible request)
  rw [retainFirst_nil] at hcandidates
  rw [scanned, scanRows_request, hcandidates]
  rfl

/-- What a lookup returns does not depend on the batches. -/
theorem definitionCandidatesBatched_eq {batchSize : Nat} (hsize : 0 < batchSize)
    (isXidContinue : Char → Bool) (names : List Str) :
    definitionCandidatesBatched tables skipGitignore batchSize isXidContinue names limit eligible =
      .ok (fillQuota IndexedChunk.vectorKey limit []
        ((definitionRequests isXidContinue names).map
          (returnedRanking tables skipGitignore limit eligible))) := by
  unfold definitionCandidatesBatched
  split
  · next hnone =>
    rcases hnone with rfl | rfl
    · rw [fillQuota_full (Nat.zero_le _)]
    · rfl
  · dsimp only
    split
    · next hempty =>
      rw [hempty]
      rfl
    · have hstart : definitionRequests isXidContinue names ≠ [] →
          ([] : List NameCandidates).length = 0 * batchSize := by simp
      have hbatches := addBatches_eq tables skipGitignore limit eligible hsize 0
        (Nat.le_refl (definitionRequests isXidContinue names).length) hstart
      rw [List.nil_append, List.nil_append] at hbatches
      rw [chunks, hbatches]
      simp only [List.map_map, Function.comp_def, rankCandidates_scanned]

end

/-! ## What the row window leaves -/

section

variable {α : Type} {tier : α → Nat} (owner : Option Str)

/-- The best tier of the first hits is that of all. -/
theorem keepBestTier_prefix {first rest : List α}
    (hsorted : (first ++ rest).Pairwise fun left right => tier left ≤ tier right) :
    keepBestTier tier owner first <+: keepBestTier tier owner (first ++ rest) := by
  cases first with
  | nil =>
    have hnil : keepBestTier tier owner [] = [] := by cases owner <;> rfl
    rw [hnil]
    exact List.nil_prefix
  | cons head first =>
    rw [List.cons_append, List.pairwise_cons] at hsorted
    have hbound : ∀ c, (∀ hit ∈ head :: (first ++ rest), c ≤ tier hit) ↔
        ∀ hit ∈ head :: first, c ≤ tier hit := by
      intro c
      constructor
      · intro h hit hhit
        exact h hit (List.mem_append_left rest hhit)
      · intro h hit hhit
        have hhead := h head (by simp)
        rcases List.mem_cons.mp hhit with rfl | hmem
        · exact hhead
        · exact Nat.le_trans hhead (hsorted.1 hit hmem)
    rw [keepBestTier_eq_filter, keepBestTier_eq_filter, List.cons_append]
    simp only [InBestTier, hbound]
    rw [← List.cons_append, List.filter_append]
    exact List.prefix_append _ _

end

section

variable (limit : Nat) (request : DefinitionRequest)

theorem requestCandidates_tier_sorted {rows : List (DefinitionRow zstd)}
    (hsorted : rows.Pairwise fun left right =>
      ownerTier request.query.owner left.owner ≤ ownerTier request.query.owner right.owner) :
    (requestCandidates limit request rows).Pairwise fun left right => left.tier ≤ right.tier := by
  rw [requestCandidates, List.pairwise_map]
  exact hsorted.sublist ((List.take_sublist _ _).trans (keepFirst_sublist _ rows))

theorem requestCandidates_prefix (rows : List (DefinitionRow zstd)) (n : Nat) :
    requestCandidates limit request (rows.take n) <+: requestCandidates limit request rows := by
  have hkeep : keepFirst DefinitionRow.vectorKey (rows.take n) <+:
      keepFirst DefinitionRow.vectorKey rows := by
    conv => rhs; rw [← List.take_append_drop n rows, keepFirst_append]
    exact List.prefix_append _ _
  exact (hkeep.take _).map _

theorem rankCandidates_sublist {first rest : List DefinitionCandidate}
    (hsorted : (first ++ rest).Pairwise fun left right => left.tier ≤ right.tier) :
    (rankCandidates request first).Sublist (rankCandidates request (first ++ rest)) := by
  have htrans : IsTrans DefinitionCandidate DefinitionCandidate.NotAfter := ⟨fun _ _ _ => le_trans⟩
  have htotal : Std.Total DefinitionCandidate.NotAfter := ⟨fun _ _ => le_total _ _⟩
  obtain ⟨others, hothers⟩ := keepBestTier_prefix request.query.owner hsorted
  rw [rankCandidates, rankCandidates, ← hothers]
  exact (insertionSort_append_sublist _ _ _).map _

theorem rankCandidates_nodup {rows : List (DefinitionRow zstd)} :
    ((rankCandidates request (requestCandidates limit request rows)).map
      IndexedChunk.vectorKey).Nodup := by
  have hcandidates : ((requestCandidates limit request rows).map
      fun candidate => candidate.chunk.vectorKey).Nodup := by
    rw [requestCandidates, List.map_map]
    have hnodup : ((keepFirst DefinitionRow.vectorKey rows).map DefinitionRow.vectorKey).Nodup :=
      keepFirst_nodup rows
    exact hnodup.sublist ((List.take_sublist _ _).map DefinitionRow.vectorKey)
  rw [rankCandidates, List.map_map, keepBestTier_eq_filter]
  refine ((List.perm_insertionSort _ _).map _).nodup_iff.mpr ?_
  exact hcandidates.sublist (List.filter_sublist.map _)

variable (tables : Tables zstd) (skipGitignore : Bool)

theorem requestRows_tier_sorted :
    (requestRows tables skipGitignore request).Pairwise fun left right =>
      ownerTier request.query.owner left.owner ≤ ownerTier request.query.owner right.owner :=
  rows_tier_sorted request.query _

/-- With a predicate the query returns all rows of a request. -/
theorem returnedRanking_some (eligible : IndexedChunk → Bool) :
    returnedRanking tables skipGitignore limit (some eligible) request =
      requestRanking tables skipGitignore limit eligible request := rfl

/-- What the query returns without a predicate is ranked as it is among all rows. -/
theorem returnedRanking_sublist (eligible : Option (IndexedChunk → Bool)) :
    (returnedRanking tables skipGitignore limit eligible request).Sublist
      (requestRanking tables skipGitignore limit (eligible.getD fun _ => true) request) := by
  cases eligible with
  | some eligible => exact List.Sublist.refl _
  | none =>
    have hall : ∀ rows : List (DefinitionRow zstd), rows.filter (fun _ => true) = rows :=
      List.filter_true
    obtain ⟨rest, hrest⟩ := requestCandidates_prefix limit request
      (requestRows tables skipGitignore request) (candidateLimitI64 limit).toNat
    have hsorted := requestCandidates_tier_sorted limit request
      (requestRows_tier_sorted request tables skipGitignore)
    rw [← hrest] at hsorted
    have hranked := rankCandidates_sublist request hsorted
    rw [hrest] at hranked
    simpa only [returnedRanking, requestRanking, returnedRows, Option.isSome_none,
      Bool.false_eq_true, if_false, Option.getD_none, Option.all_none, hall] using hranked

end

/-! ## The quota -/

theorem definitionRequests_grow (isXidContinue : Char → Bool) (names : List Str) (name : Str) :
    ∃ request : Option DefinitionRequest, definitionRequests isXidContinue (names ++ [name]) =
      definitionRequests isXidContinue names ++ request.toList := by
  unfold definitionRequests
  rw [List.map_append, List.filter_append, retainFirst_append, List.map_singleton, List.filter_cons]
  split
  · rw [List.filter_nil, retainFirst]
    split
    · exact ⟨none, rfl⟩
    · exact ⟨some (definitionRequest isXidContinue name), rfl⟩
  · exact ⟨none, rfl⟩

section

variable (tables : Tables zstd) (skipGitignore : Bool) (limit : Nat) (isXidContinue : Char → Bool)
  (names : List Str)

/-- The lookups of the first names, for each number of them, return the first distinct chunks of
    their rankings exactly when no chunk is displaced. -/
theorem lookups_exact (eligible : Option (IndexedChunk → Bool)) :
    (∀ k batchSize, 0 < batchSize → definitionCandidatesBatched tables skipGitignore batchSize
        isXidContinue (names.take k) limit eligible =
      .ok (firstDefinitions tables skipGitignore limit isXidContinue (names.take k)
        (eligible.getD fun _ => true))) ↔
      NoneDisplaced IndexedChunk.vectorKey limit
        (requestLists tables skipGitignore limit isXidContinue names eligible) := by
  have hlists : ∀ list taken,
      (list, taken) ∈ requestLists tables skipGitignore limit isXidContinue names eligible →
        taken.Sublist list ∧ (list.map IndexedChunk.vectorKey).Nodup := by
    intro list taken hmem
    obtain ⟨request, _, heq⟩ := List.mem_map.mp hmem
    cases heq
    exact ⟨returnedRanking_sublist limit request tables skipGitignore eligible,
      rankCandidates_nodup limit request⟩
  have hlookup : ∀ m, fillQuota IndexedChunk.vectorKey limit []
        (((definitionRequests isXidContinue names).take m).map
          (returnedRanking tables skipGitignore limit eligible)) =
      (keepFirst IndexedChunk.vectorKey (((definitionRequests isXidContinue names).take m).flatMap
        (requestRanking tables skipGitignore limit (eligible.getD fun _ => true)))).take limit ↔
      fillQuota IndexedChunk.vectorKey limit [] (((requestLists tables skipGitignore limit
        isXidContinue names eligible).take m).map Prod.snd) =
      (keepFirst IndexedChunk.vectorKey (((requestLists tables skipGitignore limit isXidContinue
        names eligible).take m).flatMap Prod.fst)).take limit := by
    intro m
    rw [requestLists, ← List.map_take, List.map_map, List.flatMap_map]
    rfl
  obtain ⟨hfirst, htake⟩ := exists_take_of_grow (f := definitionRequests isXidContinue) rfl
    (definitionRequests_grow isXidContinue) names
  rw [← fillQuota_exact hlists]
  constructor
  · intro h m
    obtain ⟨k, hk⟩ := htake m
    have hfirst := h k 1 Nat.one_pos
    rw [definitionCandidatesBatched_eq _ _ _ _ Nat.one_pos, Except.ok.injEq, firstDefinitions,
      ← hk] at hfirst
    exact (hlookup m).mp hfirst
  · intro h k batchSize hsize
    obtain ⟨m, hm⟩ := hfirst k
    rw [definitionCandidatesBatched_eq _ _ _ _ hsize, Except.ok.injEq, firstDefinitions, hm]
    exact (hlookup m).mpr (h m)

/-- What a lookup should return of a list of names: the first distinct chunks, whatever the size of
    a batch, and the same chunks without a predicate as with one that is always true. -/
def FillsLimit (eligible : Option (IndexedChunk → Bool)) (names : List Str) : Prop :=
  ∀ batchSize, 0 < batchSize →
    definitionCandidatesBatched tables skipGitignore batchSize isXidContinue names limit eligible =
        .ok (firstDefinitions tables skipGitignore limit isXidContinue names
          (eligible.getD fun _ => true)) ∧
      (eligible = none →
        definitionCandidatesBatched tables skipGitignore batchSize isXidContinue names limit none =
          definitionCandidatesBatched tables skipGitignore batchSize isXidContinue names limit
            (some fun _ => true))

/-- The lookups of the first names fill the limit, for each number of them, exactly when no chunk is
    displaced: neither from the ranking of the rows that the query returns, nor, where there is no
    predicate, from that of all rows. -/
theorem definitionCandidates_exact (eligible : Option (IndexedChunk → Bool)) :
    (∀ k, FillsLimit tables skipGitignore limit isXidContinue eligible (names.take k)) ↔
      NoneDisplaced IndexedChunk.vectorKey limit
          (requestLists tables skipGitignore limit isXidContinue names eligible) ∧
        (eligible = none → NoneDisplaced IndexedChunk.vectorKey limit
          (requestLists tables skipGitignore limit isXidContinue names (some fun _ => true))) := by
  rw [← lookups_exact, ← lookups_exact]
  constructor
  · intro h
    refine ⟨fun k batchSize hsize => (h k batchSize hsize).1, ?_⟩
    rintro rfl k batchSize hsize
    obtain ⟨hfirst, hsame⟩ := h k batchSize hsize
    rw [← hsame rfl, hfirst]
    rfl
  · rintro ⟨hfirst, hall⟩ k batchSize hsize
    refine ⟨hfirst k batchSize hsize, ?_⟩
    rintro rfl
    rw [hfirst k batchSize hsize, hall rfl k batchSize hsize]
    rfl

end

/-! ## A shared chunk -/

/-- The first chunk has both symbols, the second one only `b`. -/
def sharedTables : Tables unusedZstd where
  symbols := [⟨"a".toList, 1, none, none⟩, ⟨"b".toList, 1, none, none⟩, ⟨"b".toList, 2, none, none⟩]
  chunks := [sampleChunk 1 "m.rs".toList 1, sampleChunk 2 "n.rs".toList 1]

/-- With room for one more chunk, the chunk that `a` and `b` share takes the place of the other chunk
    of `b`. -/
theorem shared_chunk_displaces_candidate :
    (definitionCandidates sharedTables sampleSearch.isXidContinue
        ["a".toList, "b".toList] 2).toOption.map (List.map IndexedChunk.vectorKey) = some [1] ∧
      (firstDefinitions sharedTables true 2 sampleSearch.isXidContinue ["a".toList, "b".toList]
        fun _ => true).map IndexedChunk.vectorKey = [1, 2] := by
  constructor <;> decide +kernel

end Ivygrep.Native.Symbols
