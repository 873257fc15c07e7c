import Ivygrep.Native.Symbols
import Ivygrep.Spec.CompressionCorrect
import Ivygrep.Spec.StrCorrect

/-!
# Limited lookups of definitions

The search for a symbol takes a limited number of rows from each store before it drops the repeats.
This compares it with the ranking of all visible rows of both stores.

## Key results

- `queryWorkspaceDb_eq`: the rows that one store returns
- `keepBestTier_take`: the best tier of limited rows
- `searchSymbolsInIndex_exact`: when a limited search returns the first definitions of the ranking
- `repeated_rows_cost_a_hit`: a search that returns too few
-/

namespace Ivygrep.Native.Symbols

open ForStd Compression

variable {zstd : Zstd}

/-! ## The ranking of all visible rows -/

def StoredText.content (text : StoredText zstd) : Str :=
  match tryDecompressText zstd text.raw with
  | .ok content => content
  | .error _ => []

/-- What the indexer stores of a text. -/
def StoredText.ofText (hzstd : zstd.Documented) (text : Str)
    (hlength : (Str.bytes text).length ≤ maxDecompressedTextBytes) : StoredText zstd where
  raw := compressText zstd text
  readable := ⟨text, tryDecompressText_compressText hzstd hlength⟩

theorem ChunkRow.read_eq (chunk : ChunkRow zstd) : chunk.read = .ok chunk.text.content := by
  obtain ⟨content, hcontent⟩ := chunk.text.readable
  simp [ChunkRow.read, StoredText.content, hcontent, Except.mapError]

/-- No visible row has a better tier, or the tiers do not count: the query has no owner, or no row
    has it. -/
def InBestTier {α : Type} (tier : α → Nat) (owner : Option Str) (all : List α) (hit : α) : Prop :=
  owner = none ∨ (∀ other ∈ all, ownerTierNone ≤ tier other) ∨ ∀ other ∈ all, tier hit ≤ tier other

instance {α : Type} (tier : α → Nat) (owner : Option Str) (all : List α) :
    DecidablePred (InBestTier tier owner all) :=
  fun _ => inferInstanceAs (Decidable (owner = none ∨ _ ∨ _))

namespace SymbolSearch

variable (search : SymbolSearch)

/-- The visible rows of one store with their hits, in the order of the store. -/
def visibleHits (tables : Tables zstd) (name : Str) (shadowed : Str → Bool) :
    List (Nat × SearchHit Str) :=
  let query := parseSymbolQuery search.isXidContinue name
  if (normalizeSymbol search.isXidContinue (canonicalSymbol search.isXidContinue name)).isEmpty then
    []
  else
    ((tables.rows query (normalizeSymbol search.isXidContinue query.name)).filter fun row =>
      !search.skips shadowed row.chunk).map fun row =>
        (ownerTier query.owner row.owner, symbolHit query row row.chunk.text.content)

def primaryHits (stores : Stores zstd) (name : Str) : List (Nat × SearchHit Str) :=
  search.visibleHits stores.primary name fun _ => false

def baseHits (stores : Stores zstd) (name : Str) : List (Nat × SearchHit Str) :=
  match stores.base with
  | none => []
  | some (tables, shadowed) => search.visibleHits tables name shadowed

/-- The hits of one store that are of the best tier in the workspace. -/
def bestHits (stores : Stores zstd) (name : Str) (hits : List (Nat × SearchHit Str)) :
    List (SearchHit Str) :=
  (hits.filter fun hit =>
    InBestTier Prod.fst (parseSymbolQuery search.isXidContinue name).owner
      (search.primaryHits stores name ++ search.baseHits stores name) hit).map Prod.snd

/-- The first hit of each place in the ranking of both stores. -/
def definitionRanking (stores : Stores zstd) (name : Str) : List (SearchHit Str) :=
  ranking HitNotAfter hitPlace
    (search.bestHits stores name (search.primaryHits stores name) ++
      search.bestHits stores name (search.baseHits stores name))

/-! ## The rows of one store -/

/-- The hits of the tier that comes first. -/
def leadingTier {α : Type} (tier : α → Nat) : List α → List α
  | [] => []
  | first :: hits => (first :: hits).filter fun hit => tier hit = tier first

theorem leadingTier_cons {α : Type} (tier : α → Nat) (first : α) (hits : List α) :
    leadingTier tier (first :: hits) =
      (first :: hits).filter fun hit => decide (tier hit = tier first) := rfl

theorem ownerTier_le (requested stored : Option Str) :
    ownerTier requested stored ≤ ownerTierNone := by
  unfold ownerTier
  repeat' split
  all_goals simp [ownerTierExact, ownerTierFolded, ownerTierNone]

theorem rows_tier_sorted (query : SymbolQuery) (rows : List (DefinitionRow zstd)) :
    (rows.insertionSort (DefinitionRow.NotAfter query)).Pairwise fun left right =>
      ownerTier query.owner left.owner ≤ ownerTier query.owner right.owner := by
  have htrans : IsTrans (DefinitionRow zstd) (DefinitionRow.NotAfter query) :=
    ⟨fun _ _ _ => le_trans⟩
  have htotal : Std.Total (@DefinitionRow.NotAfter zstd query) :=
    ⟨fun left right => le_total _ _⟩
  refine (List.pairwise_insertionSort (DefinitionRow.NotAfter query) _).imp ?_
  intro left right hle
  rcases Prod.Lex.toLex_le_toLex.mp hle with hlt | ⟨heq, _⟩
  · exact Nat.le_of_lt hlt
  · exact Nat.le_of_eq heq

variable {search}

section

variable {n : Nat} (query : SymbolQuery) (shadowed : Str → Bool)

/-- The hit of a row with its tier. -/
def tieredHit (row : DefinitionRow zstd) : Nat × SearchHit Str :=
  (ownerTier query.owner row.owner, symbolHit query row row.chunk.text.content)

/-- Once a tier is accepted, the hits of that tier follow up to the limit. -/
theorem queryRows_accepted {rows : List (DefinitionRow zstd)} {tier : Nat}
    (hsorted : rows.Pairwise fun left right =>
      ownerTier query.owner left.owner ≤ ownerTier query.owner right.owner)
    (htier : ∀ row ∈ rows, tier ≤ ownerTier query.owner row.owner)
    {hits : List (Nat × SearchHit Str)} (hlength : hits.length < n) :
    search.queryRows (some n) query shadowed hits (some tier) rows =
      .ok ((hits ++ (((rows.filter fun row => !search.skips shadowed row.chunk).map
        (tieredHit query)).filter fun hit => hit.1 = tier)).take n) := by
  induction rows generalizing hits with
  | nil => simp [queryRows, List.take_of_length_le (Nat.le_of_lt hlength)]
  | cons row rows ih =>
    rw [List.pairwise_cons] at hsorted
    rw [List.forall_mem_cons] at htier
    have hnone := ownerTier_le query.owner row.owner
    unfold queryRows
    by_cases hbreak : tier < ownerTier query.owner row.owner
    · -- All rows from here on are of a weaker tier.
      rw [if_pos (by simp; omega)]
      have hweaker : ∀ hit ∈ ((row :: rows).filter fun row => !search.skips shadowed row.chunk).map
          (tieredHit query), hit.1 ≠ tier := by
        intro hit hhit
        obtain ⟨other, hother, rfl⟩ := List.mem_map.mp hhit
        simp only [tieredHit]
        rcases List.mem_cons.mp (List.mem_of_mem_filter hother) with rfl | hmem
        · omega
        · have hle := hsorted.1 other hmem
          omega
      rw [List.filter_eq_nil_iff.mpr fun hit hhit => by simpa using hweaker hit hhit,
        List.append_nil, List.take_of_length_le (Nat.le_of_lt hlength)]
    · have heq : ownerTier query.owner row.owner = tier := by omega
      rw [if_neg (by simp; omega)]
      by_cases hskips : search.skips shadowed row.chunk
      · rw [if_pos hskips, ih hsorted.2 htier.2 hlength]
        simp [hskips]
      · rw [if_neg hskips, row.chunk.read_eq]
        have hkept : hits ++ (((row :: rows).filter fun row =>
            !search.skips shadowed row.chunk).map (tieredHit query)).filter (fun hit => hit.1 = tier) =
            hits ++ [tieredHit query row] ++ ((rows.filter fun row =>
              !search.skips shadowed row.chunk).map (tieredHit query)).filter
                fun hit => hit.1 = tier := by
          simp [hskips, tieredHit, heq]
        simp only [Option.any_some, decide_eq_true_eq, List.length_append,
          List.length_singleton]
        rw [hkept]
        have hlonger : (hits ++ [tieredHit query row]).length = hits.length + 1 := by simp
        split
        · next hfull =>
          rw [List.take_append_of_le_length (by omega), List.take_of_length_le (by omega)]
          rfl
        · next hroom =>
          have hshort : (hits ++ [tieredHit query row]).length < n := by omega
          exact ih hsorted.2 htier.2 hshort

theorem queryRows_eq {rows : List (DefinitionRow zstd)}
    (hsorted : rows.Pairwise fun left right =>
      ownerTier query.owner left.owner ≤ ownerTier query.owner right.owner) (hn : 0 < n) :
    search.queryRows (some n) query shadowed [] none rows =
      .ok ((leadingTier Prod.fst ((rows.filter fun row => !search.skips shadowed row.chunk).map
        (tieredHit query))).take n) := by
  induction rows with
  | nil => simp [queryRows, leadingTier]
  | cons row rows ih =>
    rw [List.pairwise_cons] at hsorted
    unfold queryRows
    rw [if_neg (by simp)]
    by_cases hskips : search.skips shadowed row.chunk
    · rw [if_pos hskips, ih hsorted.2]
      simp [hskips]
    · rw [if_neg hskips, row.chunk.read_eq]
      have hleading : leadingTier Prod.fst
          (((row :: rows).filter fun row => !search.skips shadowed row.chunk).map
            (tieredHit query)) =
          tieredHit query row :: ((rows.filter fun row => !search.skips shadowed row.chunk).map
            (tieredHit query)).filter fun hit => hit.1 = ownerTier query.owner row.owner := by
        simp [hskips, leadingTier, tieredHit]
      simp only [Option.any_some, decide_eq_true_eq, List.nil_append, List.length_singleton]
      rw [hleading]
      split
      · next hfull =>
        obtain rfl : n = 1 := by omega
        simp [tieredHit]
      · next hroom =>
        exact queryRows_accepted query shadowed hsorted.2 hsorted.1 (by simp; omega)

end

/-- What one store returns: the first hits of the best tier that it has. -/
theorem queryWorkspaceDb_eq {n : Nat} (hn : 0 < n)
    (tables : Tables zstd) (query : SymbolQuery) (normalized : Str) (shadowed : Str → Bool) :
    search.queryWorkspaceDb (some n) tables query normalized shadowed =
      .ok ((leadingTier Prod.fst (((tables.rows query normalized).filter fun row =>
        !search.skips shadowed row.chunk).map (tieredHit query))).take n) := by
  rw [queryWorkspaceDb, if_neg (by simp; omega)]
  exact queryRows_eq query shadowed (rows_tier_sorted query _) hn

/-! ## The best tier -/

/-- Hits as a store has them: in the order of their tiers, which are all the same without an
    owner. -/
structure TierSorted {α : Type} (tier : α → Nat) (owner : Option Str) (hits : List α) : Prop where
  sorted : hits.Pairwise fun left right => tier left ≤ tier right
  le_none : ∀ hit ∈ hits, tier hit ≤ ownerTierNone
  unqualified : owner = none → ∀ hit ∈ hits, tier hit = ownerTierExact

theorem tierSorted_nil {α : Type} (tier : α → Nat) (owner : Option Str) :
    TierSorted tier owner [] := ⟨.nil, nofun, fun _ => nofun⟩

section

variable {α : Type} {tier : α → Nat} {owner : Option Str}

theorem mem_of_mem_take_leadingTier {n : Nat} {hits : List α} {hit : α}
    (h : hit ∈ (leadingTier tier hits).take n) : hit ∈ hits := by
  cases hits with
  | nil => simp [leadingTier] at h
  | cons first hits =>
    rw [leadingTier_cons] at h
    exact List.mem_of_mem_filter (List.mem_of_mem_take h)

/-- `keepBestTier` as a filter. -/
theorem keepBestTier_eq_filter (hits : List α) :
    keepBestTier tier owner hits = hits.filter fun hit => InBestTier tier owner hits hit := by
  have hall : (∀ hit ∈ hits, InBestTier tier owner hits hit) →
      hits = hits.filter fun hit => InBestTier tier owner hits hit := fun h =>
    (List.filter_eq_self.mpr fun hit hhit => by simpa using h hit hhit).symm
  cases owner with
  | none => exact hall fun _ _ => .inl rfl
  | some requested =>
    simp only [keepBestTier]
    cases hbest : (hits.map tier).min? with
    | none =>
      rw [List.min?_eq_none_iff, List.map_eq_nil_iff] at hbest
      simp [hbest]
    | some best =>
    show (if best < ownerTierNone then hits.filter fun hit => tier hit = best else hits) = _
    obtain ⟨hmem, hleast⟩ := List.min?_eq_some_iff.mp hbest
    rw [List.forall_mem_map] at hleast
    obtain ⟨hit, hhit, heq⟩ := List.mem_map.mp hmem
    split
    · next hmatched =>
      refine List.filter_congr fun other hother => ?_
      have hiff : tier other = best ↔ InBestTier tier (some requested) hits other := by
        constructor
        · intro hbestTier
          exact .inr (.inr fun third hthird => by rw [hbestTier]; exact hleast third hthird)
        · rintro (hnone | hnone | hleast')
          · cases hnone
          · have hweak := hnone hit hhit
            omega
          · have hle := hleast' hit hhit
            have hge := hleast other hother
            omega
      simpa using hiff
    · next hunmatched =>
      refine hall fun _ _ => .inr (.inl fun other hother => ?_)
      have hge := hleast other hother
      omega

/-- A bound on the tiers is seen on the first hits of the leading tier. -/
theorem forall_take_leadingTier {n c : Nat} (hn : 0 < n) {hits : List α}
    (hsorted : hits.Pairwise fun left right => tier left ≤ tier right) :
    (∀ hit ∈ (leadingTier tier hits).take n, c ≤ tier hit) ↔ ∀ hit ∈ hits, c ≤ tier hit := by
  cases hits with
  | nil => simp [leadingTier]
  | cons first hits =>
    obtain ⟨n, rfl⟩ := Nat.exists_eq_succ_of_ne_zero (Nat.ne_of_gt hn)
    constructor
    · intro h hit hhit
      have hfirst := h first (by simp [leadingTier])
      rcases List.mem_cons.mp hhit with rfl | hmem
      · exact hfirst
      · exact Nat.le_trans hfirst ((List.pairwise_cons.mp hsorted).1 hit hmem)
    · intro h hit hhit
      exact h hit (mem_of_mem_take_leadingTier hhit)

/-- Where the leading hits are all of the best tier or all of another, it does not matter whether
    the tier or the limit is applied first. -/
theorem filter_take_leadingTier {n : Nat} {hits all : List α} (hmem : ∀ hit ∈ hits, hit ∈ all)
    (h : TierSorted tier owner hits) :
    ((leadingTier tier hits).take n).filter (fun hit => InBestTier tier owner all hit) =
      (hits.filter fun hit => InBestTier tier owner all hit).take n := by
  cases hits with
  | nil => simp [leadingTier]
  | cons first hits =>
    have hfirst : ∀ hit ∈ first :: hits, InBestTier tier owner all hit → tier hit = tier first := by
      intro hit hhit hbest
      have hge : tier first ≤ tier hit := by
        rcases List.mem_cons.mp hhit with rfl | hrest
        · exact Nat.le_refl _
        · exact (List.pairwise_cons.mp h.sorted).1 hit hrest
      rcases hbest with hnone | hweak | hleast
      · rw [h.unqualified hnone hit hhit, h.unqualified hnone first (by simp)]
      · have hle := h.le_none hit hhit
        have hlow := hweak first (hmem first (by simp))
        omega
      · have hle := hleast first (hmem first (by simp))
        omega
    have hsame : ∀ hit, tier hit = tier first →
        (InBestTier tier owner all hit ↔ InBestTier tier owner all first) := by
      intro hit heq
      simp only [InBestTier, heq]
    by_cases hbest : InBestTier tier owner all first
    · have hkept : (first :: hits).filter (fun hit => InBestTier tier owner all hit) =
          leadingTier tier (first :: hits) := by
        rw [leadingTier_cons]
        refine List.filter_congr fun hit hhit => ?_
        have hiff : InBestTier tier owner all hit ↔ tier hit = tier first :=
          ⟨hfirst hit hhit, fun heq => (hsame hit heq).mpr hbest⟩
        simpa using hiff
      rw [hkept]
      refine List.filter_eq_self.mpr fun hit hhit => ?_
      have heq := List.of_mem_filter (List.mem_of_mem_take hhit)
      simpa using (hsame hit (by simpa using heq)).mpr hbest
    · have hnone : ∀ hit ∈ first :: hits, ¬ InBestTier tier owner all hit := fun hit hhit h =>
        hbest ((hsame hit (hfirst hit hhit h)).mp h)
      have hfilter : (first :: hits).filter (fun hit => InBestTier tier owner all hit) = [] :=
        List.filter_eq_nil_iff.mpr fun hit hhit => by simpa using hnone hit hhit
      rw [hfilter, List.take_nil]
      refine List.filter_eq_nil_iff.mpr fun hit hhit => ?_
      simpa using hnone hit (mem_of_mem_take_leadingTier hhit)

/-- The best tier of what two stores return is that of all their rows. -/
theorem keepBestTier_take {n : Nat} (hn : 0 < n) {left right : List α}
    (hleft : TierSorted tier owner left) (hright : TierSorted tier owner right) :
    keepBestTier tier owner ((leadingTier tier left).take n ++ (leadingTier tier right).take n) =
      (left.filter fun hit => InBestTier tier owner (left ++ right) hit).take n ++
        (right.filter fun hit => InBestTier tier owner (left ++ right) hit).take n := by
  have hiff : ∀ hit, InBestTier tier owner
      ((leadingTier tier left).take n ++ (leadingTier tier right).take n) hit ↔
        InBestTier tier owner (left ++ right) hit := by
    intro hit
    simp only [InBestTier, List.forall_mem_append, forall_take_leadingTier hn hleft.sorted,
      forall_take_leadingTier hn hright.sorted]
  rw [keepBestTier_eq_filter]
  simp only [hiff]
  rw [List.filter_append, filter_take_leadingTier (by simp +contextual) hleft,
    filter_take_leadingTier (by simp +contextual) hright]

end

/-! ## The order of the hits -/

instance : IsTrans (SearchHit Str) HitNotAfter := ⟨fun _ _ _ => le_trans⟩

instance : Std.Total HitNotAfter := ⟨fun _ _ => le_total _ _⟩

theorem byteOrder_injective : Function.Injective byteOrder := by
  intro left right h
  have hinj : Function.Injective UInt8.toNat := fun _ _ => UInt8.toNat_inj.mp
  exact Str.bytes_injective (List.map_injective_iff.mpr hinj h)

/-- Hits that tie are of one place. -/
theorem hitPlace_eq_of_tie (left right : SearchHit Str) (h : HitNotAfter left right)
    (h' : HitNotAfter right left) : hitPlace left = hitPlace right := by
  have heq : hitOrder left = hitOrder right := le_antisymm h h'
  simp only [hitOrder, EmbeddingLike.apply_eq_iff_eq, Prod.mk.injEq] at heq
  rw [hitPlace, hitPlace, byteOrder_injective heq.2.1, heq.2.2]

/-! ## The search -/

variable (search) in
theorem visibleHits_tierSorted (tables : Tables zstd) (name : Str) (shadowed : Str → Bool) :
    TierSorted Prod.fst (parseSymbolQuery search.isXidContinue name).owner
      (search.visibleHits tables name shadowed) := by
  unfold visibleHits
  split
  · exact tierSorted_nil _ _
  · refine ⟨?_, ?_, ?_⟩
    · rw [List.pairwise_map]
      exact (rows_tier_sorted _ _).sublist List.filter_sublist
    · intro hit hhit
      obtain ⟨row, _, rfl⟩ := List.mem_map.mp hhit
      exact ownerTier_le _ _
    · intro hnone hit hhit
      obtain ⟨row, _, rfl⟩ := List.mem_map.mp hhit
      simp [hnone, ownerTier]

theorem baseHits_tierSorted (stores : Stores zstd) (name : Str) :
    TierSorted Prod.fst (parseSymbolQuery search.isXidContinue name).owner
      (search.baseHits stores name) := by
  unfold baseHits
  split
  · exact tierSorted_nil _ _
  · exact visibleHits_tierSorted _ _ _ _

/-- What the store of one query returns, when the name has a symbol. -/
theorem queryWorkspaceDb_visible {n : Nat} (hn : 0 < n)
    (tables : Tables zstd) {name : Str} (shadowed : Str → Bool)
    (hname : ¬ (normalizeSymbol search.isXidContinue
      (canonicalSymbol search.isXidContinue name)).isEmpty) :
    search.queryWorkspaceDb (some n) tables (parseSymbolQuery search.isXidContinue name)
        (normalizeSymbol search.isXidContinue (parseSymbolQuery search.isXidContinue name).name)
        shadowed =
      .ok ((leadingTier Prod.fst (search.visibleHits tables name shadowed)).take n) := by
  rw [queryWorkspaceDb_eq hn, visibleHits, if_neg hname]
  rfl

theorem queryBase_visible {n : Nat} (hn : 0 < n)
    (stores : Stores zstd) {name : Str}
    (hname : ¬ (normalizeSymbol search.isXidContinue
      (canonicalSymbol search.isXidContinue name)).isEmpty) :
    search.queryBase (some n) stores (parseSymbolQuery search.isXidContinue name)
        (normalizeSymbol search.isXidContinue (parseSymbolQuery search.isXidContinue name).name) =
      .ok ((leadingTier Prod.fst (search.baseHits stores name)).take n) := by
  unfold queryBase baseHits
  cases stores.base with
  | none => rw [show leadingTier Prod.fst ([] : List (Nat × SearchHit Str)) = [] from rfl,
      List.take_nil]
  | some base => exact queryWorkspaceDb_visible hn base.1 base.2 hname

/-- The search sorts the first hits of the best tier from each store. -/
theorem searchSymbolsInIndex_eq {n : Nat} (hn : 0 < n)
    (stores : Stores zstd) (name : Str) :
    search.searchSymbolsInIndex (some n) stores name =
      .ok ((dedupAdjacent hitPlace none
        (((search.bestHits stores name (search.primaryHits stores name)).take n ++
          (search.bestHits stores name (search.baseHits stores name)).take n).insertionSort
            HitNotAfter)).take n) := by
  unfold searchSymbolsInIndex
  split
  · next hempty =>
    have hnone : ∀ (tables : Tables zstd) shadowed,
        search.visibleHits tables name shadowed = [] := fun _ _ => if_pos hempty
    have hbase : search.baseHits stores name = [] := by
      unfold baseHits
      split
      · rfl
      · exact hnone _ _
    simp [bestHits, primaryHits, hbase, hnone, dedupAdjacent]
  · next hname =>
    have hbest := keepBestTier_take hn
      (visibleHits_tierSorted search stores.primary name fun _ => false)
      (baseHits_tierSorted stores name)
    simp only [queryWorkspaceDb_visible hn _ _ hname, queryBase_visible hn stores hname,
      bind, Except.bind, truncate]
    rw [hbest, List.map_append, List.map_take, List.map_take]
    rfl

/-- No store is read for a limit of zero. -/
theorem searchSymbolsInIndex_zero (stores : Stores zstd) (name : Str) :
    search.searchSymbolsInIndex (some 0) stores name = .ok [] := by
  have hquery : ∀ (tables : Tables zstd) query normalized shadowed,
      search.queryWorkspaceDb (some 0) tables query normalized shadowed = .ok [] :=
    fun _ _ _ _ => if_pos rfl
  unfold searchSymbolsInIndex queryBase
  simp only [hquery, truncate]
  split
  · rfl
  · cases stores.base <;> rfl

/-- A search with a limit returns the first definitions of the ranking exactly when, up to there,
    each place comes out of the rows that its store returns and no place comes out again. -/
theorem searchSymbolsInIndex_exact (search : SymbolSearch) (n : Nat) (stores : Stores zstd)
    (name : Str) :
    search.searchSymbolsInIndex (some n) stores name =
        .ok ((search.definitionRanking stores name).take n) ↔
      Undisturbed hitPlace n [] none
        (rankedRows HitNotAfter n (search.bestHits stores name (search.primaryHits stores name))
          (search.bestHits stores name (search.baseHits stores name))) := by
  rcases Nat.eq_zero_or_pos n with rfl | hn
  · rw [searchSymbolsInIndex_zero, List.take_zero]
    refine iff_of_true rfl ?_
    generalize rankedRows HitNotAfter 0 _ _ = rows
    exact undisturbed_zero [] none rows
  · rw [searchSymbolsInIndex_eq hn, Except.ok.injEq]
    exact take_dedup_sort_eq_iff HitNotAfter hitPlace_eq_of_tie n _ _

/-! ## A place with two rows -/

/-- A `zstd` that is not used: short texts are stored as they are. -/
def unusedZstd : Zstd where
  compress _ := none
  getFrameContentSize _ := none
  findFrameCompressedSize _ := none
  decompressToBuffer _ _ := none
  stream _ := none

def sampleChunk (chunkKey : Int) (filePath : Str) (endLine : Nat) : ChunkRow unusedZstd where
  chunkKey := chunkKey
  filePath := filePath
  startLine := 1
  endLine := endLine
  language := "rust".toList
  kind := "Function".toList
  text := ⟨Str.bytes "fn f() {}".toList, _, tryDecompressText_plain _⟩
  vectorKey := chunkKey
  isIgnored := false

def sampleSymbol (chunkKey : Int) : SymbolRow := ⟨"f".toList, chunkKey, none, none⟩

/-- Two chunks of `a.rs` start on its first line. -/
def sampleStores : Stores unusedZstd where
  primary := {
    symbols := [sampleSymbol 1, sampleSymbol 2, sampleSymbol 3]
    chunks := [sampleChunk 1 "a.rs".toList 1, sampleChunk 2 "a.rs".toList 3,
      sampleChunk 3 "b.rs".toList 1] }
  base := none

def sampleSearch : SymbolSearch where
  isXidContinue c := c.isAlphanum || c == '_'
  resolveTypeAlias _ := none
  scopeFilter := none
  typeFilter := none
  pathMatches _ := true
  skipGitignore := false
  isMissing _ := false

/-- Both rows that the store returns are of one place, and the other definition is lost. -/
theorem repeated_rows_cost_a_hit :
    (sampleSearch.searchSymbolsInIndex (some 2) sampleStores "f".toList).toOption.map
        (List.map fun hit => (hit.filePath, hit.startLine)) = some [("a.rs".toList, 1)] ∧
      ((sampleSearch.definitionRanking sampleStores "f".toList).take 2).map
        (fun hit => (hit.filePath, hit.startLine)) = [("a.rs".toList, 1), ("b.rs".toList, 1)] := by
  constructor <;> decide +kernel

end SymbolSearch

end Ivygrep.Native.Symbols
