import Ivygrep.ForStd.Quota
import Ivygrep.Native.CallSites
import Ivygrep.Spec.SymbolSearchCorrect

/-!
# Complete callers and references

Rounds over a growing set of candidates, with the places and chunks seen before. What one round has
used up does not cost a later one a result: a list that is not full has all that there is.

## Key results

- `definitions_ok`: the definitions are read without an error
- `visitChunk_inv`: one chunk
- `widen_inv`: all rounds
- `searchCallSites_complete`: the lists of a search
-/

namespace Ivygrep.Native.Symbols

open ForStd Compression

/-- The place of a line. -/
def placeOf (line : Str × SymbolLine) : Str × Nat := (line.1, line.2.line)

def hitStart (hit : SearchHit Str) : Str × Nat := (hit.filePath, hit.startLine)

/-! ## One line -/

/-- What the references hold of the lines that were visited. -/
structure References (limit : Option Nat) (visited : List (Str × SymbolLine)) (sites : CallSites) :
    Prop where
  seen : sites.seenReferences = (sites.references.map hitStart).reverse
  nodup : (sites.references.map hitStart).Nodup
  source : ∀ hit ∈ sites.references, ∃ line ∈ visited, hit = referenceHit line.1 line.2
  bound : ∀ n ∈ limit, sites.references.length ≤ n
  complete : hasRoom limit sites.references → ∀ line ∈ visited,
    placeOf line ∈ sites.references.map hitStart

/-- The calls seen are those of the lines that were visited. -/
def CallsSeen (visited : List (Str × SymbolLine)) (sites : CallSites) : Prop :=
  ∀ place, place ∈ sites.seenCallSites ↔ ∃ line ∈ visited, line.2.isCall ∧ placeOf line = place

section

variable {limit : Option Nat} {visited : List (Str × SymbolLine)} {sites : CallSites}

theorem hasRoom_of_append {hits : List (SearchHit Str)} {hit : SearchHit Str}
    (h : hasRoom limit (hits ++ [hit])) : hasRoom limit hits := by
  cases limit with
  | none => rfl
  | some n =>
    simp only [hasRoom, Option.all_some, decide_eq_true_eq, List.length_append,
      List.length_singleton] at h ⊢
    omega

theorem bound_of_hasRoom {hits : List (SearchHit Str)} (hit : SearchHit Str)
    (h : hasRoom limit hits) : ∀ n ∈ limit, (hits ++ [hit]).length ≤ n := by
  intro n hn
  rw [Option.mem_def] at hn
  simp only [hasRoom, hn, Option.all_some, decide_eq_true_eq] at h
  simp only [List.length_append, List.length_singleton]
  omega

/-- A line is in the references, unless they are full. -/
theorem References.visitLine (h : References limit visited sites) (hasCall : Bool) (path : Str)
    (occurrence : SymbolLine) :
    References limit (visited ++ [(path, occurrence)])
      (visitLine limit path (sites, hasCall) occurrence).1 := by
  have hreferences : ∀ calls, References limit (visited ++ [(path, occurrence)])
      (if hasRoom limit sites.references ∧ (path, occurrence.line) ∉ sites.seenReferences then
        { sites with
          seenCallSites := calls
          references := sites.references ++ [referenceHit path occurrence]
          seenReferences := (path, occurrence.line) :: sites.seenReferences }
      else { sites with seenCallSites := calls }) := by
    intro calls
    have hseen : ∀ place, place ∈ sites.seenReferences ↔
        place ∈ sites.references.map hitStart := by
      intro place
      rw [h.seen, List.mem_reverse]
    split
    · next hnew =>
      obtain ⟨hroom, hnew⟩ := hnew
      rw [hseen] at hnew
      refine ⟨?_, ?_, ?_, bound_of_hasRoom _ hroom, ?_⟩
      · simp [h.seen, referenceHit, hitStart]
      · rw [List.map_append, List.nodup_append']
        refine ⟨h.nodup, by simp, ?_⟩
        intro place hold hplace
        obtain rfl : place = (path, occurrence.line) := by
          simpa [referenceHit, hitStart] using hplace
        exact hnew hold
      · intro hit hhit
        rcases List.mem_append.mp hhit with hhit | hhit
        · obtain ⟨line, hline, heq⟩ := h.source hit hhit
          exact ⟨line, List.mem_append_left _ hline, heq⟩
        · exact ⟨(path, occurrence), by simp, List.mem_singleton.mp hhit⟩
      · intro hlater line hline
        rw [List.map_append, List.mem_append]
        rcases List.mem_append.mp hline with hline | hline
        · exact .inl (h.complete hroom line hline)
        · rw [List.mem_singleton.mp hline]
          exact .inr (by simp [placeOf, referenceHit, hitStart])
    · next hold =>
      refine ⟨h.seen, h.nodup, ?_, h.bound, ?_⟩
      · intro hit hhit
        obtain ⟨line, hline, heq⟩ := h.source hit hhit
        exact ⟨line, List.mem_append_left _ hline, heq⟩
      · intro hroom line hline
        rcases List.mem_append.mp hline with hline | hline
        · exact h.complete hroom line hline
        · rw [List.mem_singleton.mp hline]
          by_contra hnot
          exact hold ⟨hroom, fun hmem => hnot ((hseen _).mp hmem)⟩
  unfold Symbols.visitLine
  simp only
  split
  · exact hreferences _
  · exact hreferences sites.seenCallSites

theorem visitLine_frame (limit : Option Nat) (sites : CallSites) (hasCall : Bool) (path : Str)
    (occurrence : SymbolLine) :
    (visitLine limit path (sites, hasCall) occurrence).1.callers = sites.callers ∧
      (visitLine limit path (sites, hasCall) occurrence).1.seenChunks = sites.seenChunks ∧
      (visitLine limit path (sites, hasCall) occurrence).1.isDone = sites.isDone := by
  unfold visitLine
  simp only
  split <;> split <;> exact ⟨rfl, rfl, rfl⟩

theorem visitLine_seenCallSites (limit : Option Nat) (sites : CallSites) (hasCall : Bool)
    (path : Str) (occurrence : SymbolLine) :
    (visitLine limit path (sites, hasCall) occurrence).1.seenCallSites =
        (if occurrence.isCall ∧ (path, occurrence.line) ∉ sites.seenCallSites then
          (path, occurrence.line) :: sites.seenCallSites
        else sites.seenCallSites) ∧
      ((visitLine limit path (sites, hasCall) occurrence).2 = true ↔
        hasCall = true ∨ occurrence.isCall ∧ (path, occurrence.line) ∉ sites.seenCallSites) := by
  unfold visitLine
  simp only
  split
  · next hnew =>
    refine ⟨?_, by simp [hnew]⟩
    split <;> rfl
  · next hold =>
    refine ⟨?_, by simp only [hold, or_false]⟩
    split <;> rfl

theorem CallsSeen.visitLine (h : CallsSeen visited sites) (hasCall : Bool) (path : Str)
    (occurrence : SymbolLine) :
    CallsSeen (visited ++ [(path, occurrence)])
      (Symbols.visitLine limit path (sites, hasCall) occurrence).1 := by
  intro place
  have hmem : place ∈ (Symbols.visitLine limit path (sites, hasCall) occurrence).1.seenCallSites ↔
      place ∈ sites.seenCallSites ∨ occurrence.isCall ∧ (path, occurrence.line) = place := by
    rw [(visitLine_seenCallSites limit sites hasCall path occurrence).1]
    split
    · next hnew =>
      rw [List.mem_cons]
      constructor
      · rintro (rfl | hold)
        · exact .inr ⟨hnew.1, rfl⟩
        · exact .inl hold
      · rintro (hold | ⟨-, rfl⟩)
        · exact .inr hold
        · exact .inl rfl
    · next hold =>
      refine ⟨.inl, ?_⟩
      rintro (hmem | ⟨hcall, rfl⟩)
      · exact hmem
      · by_contra hnot
        exact hold ⟨hcall, hnot⟩
  rw [hmem, h place]
  simp only [List.mem_append, List.mem_singleton, or_and_right, exists_or]
  refine or_congr_right ?_
  simp [placeOf]

/-- The lines of a chunk. -/
theorem visitLines_spec (path : Str) (occurrences : List SymbolLine) (hasCall : Bool)
    (hreferences : References limit visited sites) (hcalls : CallsSeen visited sites) :
    let result := occurrences.foldl (visitLine limit path) (sites, hasCall)
    References limit (visited ++ occurrences.map (path, ·)) result.1 ∧
      CallsSeen (visited ++ occurrences.map (path, ·)) result.1 ∧
      result.1.callers = sites.callers ∧ result.1.seenChunks = sites.seenChunks ∧
      result.1.isDone = sites.isDone ∧
      (result.2 = true ↔ hasCall = true ∨ ∃ occurrence ∈ occurrences, occurrence.isCall ∧
        (path, occurrence.line) ∉ sites.seenCallSites) := by
  induction occurrences generalizing visited sites hasCall with
  | nil => simpa using ⟨hreferences, hcalls⟩
  | cons occurrence occurrences ih =>
    obtain ⟨hcallers, hchunks, hdone⟩ := visitLine_frame limit sites hasCall path occurrence
    obtain ⟨hseen, hflag⟩ := visitLine_seenCallSites limit sites hasCall path occurrence
    obtain ⟨hrefs, hall, hsame⟩ := ih (visitLine limit path (sites, hasCall) occurrence).2
      (hreferences.visitLine hasCall path occurrence) (hcalls.visitLine hasCall path occurrence)
    obtain ⟨hcallers', hchunks', hdone', hflag'⟩ := hsame
    rw [List.foldl_cons]
    simp only [List.map_cons]
    rw [List.append_cons]
    refine ⟨hrefs, hall, hcallers'.trans hcallers, hchunks'.trans hchunks, hdone'.trans hdone, ?_⟩
    show (List.foldl (visitLine limit path) ((visitLine limit path (sites, hasCall) occurrence).1,
      (visitLine limit path (sites, hasCall) occurrence).2) occurrences).2 = true ↔ _
    rw [hflag', hflag, hseen]
    -- A call that is new before this line and not after it is one at the place of this line.
    by_cases hnew : occurrence.isCall ∧ (path, occurrence.line) ∉ sites.seenCallSites
    · simp [hnew]
    · simp only [hnew, if_false, or_false, List.exists_mem_cons_iff, false_or]

end

/-! ## One chunk -/

/-- The lines of a chunk, with its file. -/
def chunkLines (lines : Str → List SymbolLine) (chunk : IndexedChunk) : List (Str × SymbolLine) :=
  ((lines chunk.filePath).filter (inChunk chunk)).map (chunk.filePath, ·)

theorem mem_chunkLines {lines : Str → List SymbolLine} {chunk : IndexedChunk}
    {line : Str × SymbolLine} :
    line ∈ chunkLines lines chunk ↔ line.1 = chunk.filePath ∧ line.2 ∈ lines chunk.filePath ∧
      inChunk chunk line.2 := by
  simp only [chunkLines, List.mem_map, List.mem_filter]
  constructor
  · rintro ⟨occurrence, ⟨hmem, hin⟩, rfl⟩
    exact ⟨rfl, hmem, hin⟩
  · rintro ⟨hpath, hmem, hin⟩
    exact ⟨line.2, ⟨hmem, hin⟩, by rw [← hpath]⟩

/-- A caller with the call line that no chunk had before it. -/
abbrev Claim := IndexedChunk × Nat

def Claim.place (claim : Claim) : Str × Nat := (claim.1.filePath, claim.2)

/-- What the callers hold of the chunks that were visited. -/
structure Callers (limit : Option Nat) (lines : Str → List SymbolLine)
    (visited : List IndexedChunk) (sites : CallSites) (claims : List Claim) : Prop where
  eq_map : sites.callers = claims.map fun claim => callerHit claim.1
  chunks_nodup : (claims.map fun claim => claim.1.vectorKey).Nodup
  places_nodup : (claims.map Claim.place).Nodup
  valid : ∀ claim ∈ claims, claim.1 ∈ visited ∧ ∃ occurrence ∈ lines claim.1.filePath,
    occurrence.isCall ∧ occurrence.line = claim.2 ∧ inChunk claim.1 occurrence
  bound : ∀ n ∈ limit, sites.callers.length ≤ n
  complete : hasRoom limit sites.callers → ∀ place ∈ sites.seenCallSites, ∃ claim ∈ claims,
    claim.1.filePath = place.1 ∧ claim.1.startLine ≤ place.2 ∧ place.2 ≤ claim.1.endLine

namespace CallSiteSearch

variable {search : CallSiteSearch} {lines : Str → List SymbolLine}

/-- What holds after chunks were visited. -/
structure Visited (search : CallSiteSearch) (lines : Str → List SymbolLine)
    (visited : List IndexedChunk) (sites : CallSites) : Prop where
  references : References search.limit (visited.flatMap (chunkLines lines)) sites
  calls : CallsSeen (visited.flatMap (chunkLines lines)) sites
  callers : ∃ claims, Callers search.limit lines visited sites claims
  done : sites.isDone → search.isFull sites

theorem visitChunk_inv {visited : List IndexedChunk} {sites : CallSites}
    (h : Visited search lines visited sites) (hdone : sites.isDone = false) {chunk : IndexedChunk}
    (hnew : chunk.vectorKey ∉ visited.map IndexedChunk.vectorKey) :
    Visited search lines (visited ++ [chunk]) (search.visitChunk lines sites chunk) ∧
      (search.visitChunk lines sites chunk).seenChunks = sites.seenChunks := by
  obtain ⟨claims, hclaims⟩ := h.callers
  obtain ⟨hreferences, hcalls, hcallers, hchunks, -, hflag⟩ := visitLines_spec chunk.filePath
    ((lines chunk.filePath).filter (inChunk chunk)) false h.references h.calls
  have hvisited : (visited ++ [chunk]).flatMap (chunkLines lines) =
      visited.flatMap (chunkLines lines) ++
        ((lines chunk.filePath).filter (inChunk chunk)).map (chunk.filePath, ·) := by
    rw [List.flatMap_append, List.flatMap_singleton]
    rfl
  unfold visitChunk
  rw [hdone, if_neg (by simp)]
  simp only
  generalize ((lines chunk.filePath).filter (inChunk chunk)).foldl
    (visitLine search.limit chunk.filePath) (sites, false) = result at *
  obtain ⟨after, hasCall⟩ := result
  simp only at hreferences hcalls hcallers hchunks hflag ⊢
  rw [← hvisited] at hreferences hcalls
  -- The old claims are of chunks that were visited before.
  have hold : ∀ claim ∈ claims, claim.1 ∈ visited ++ [chunk] ∧
      ∃ occurrence ∈ lines claim.1.filePath, occurrence.isCall ∧ occurrence.line = claim.2 ∧
        inChunk claim.1 occurrence := by
    intro claim hclaim
    obtain ⟨hmem, hcall⟩ := hclaims.valid claim hclaim
    exact ⟨List.mem_append_left _ hmem, hcall⟩
  -- A place is one that was seen before, or one of this chunk.
  have hplaces : ∀ place ∈ after.seenCallSites, place ∈ sites.seenCallSites ∨
      ∃ occurrence ∈ (lines chunk.filePath).filter (inChunk chunk), occurrence.isCall ∧
        (chunk.filePath, occurrence.line) = place := by
    intro place hplace
    obtain ⟨line, hline, hcall, rfl⟩ := (hcalls place).mp hplace
    rw [List.flatMap_append, List.flatMap_singleton, List.mem_append] at hline
    rcases hline with hline | hline
    · exact .inl ((h.calls _).mpr ⟨line, hline, hcall, rfl⟩)
    · obtain ⟨hpath, hmem, hin⟩ := mem_chunkLines.mp hline
      exact .inr ⟨line.2, List.mem_filter.mpr ⟨hmem, hin⟩, hcall, by rw [placeOf, hpath]⟩
  split
  · next hpushed =>
    rw [Bool.and_eq_true] at hpushed
    obtain ⟨hcall, hroom⟩ := hpushed
    obtain ⟨occurrence, hocc, hisCall, hfresh⟩ := (hflag.mp hcall).resolve_left (by simp)
    obtain ⟨hmem, hin⟩ := List.mem_filter.mp hocc
    refine ⟨⟨?_, hcalls, ⟨claims ++ [(chunk, occurrence.line)], ?_⟩, fun hyes => hyes⟩, hchunks⟩
    · exact ⟨hreferences.seen, hreferences.nodup, hreferences.source, hreferences.bound,
        hreferences.complete⟩
    · refine ⟨?_, ?_, ?_, ?_, bound_of_hasRoom _ hroom, ?_⟩
      · simp [hcallers, hclaims.eq_map]
      · rw [List.map_append, List.nodup_append']
        refine ⟨hclaims.chunks_nodup, by simp, fun key hkey hsame => ?_⟩
        obtain rfl : key = chunk.vectorKey := by simpa using hsame
        obtain ⟨claim, hclaim, heq⟩ := List.mem_map.mp hkey
        apply hnew
        rw [← heq]
        exact List.mem_map_of_mem (hclaims.valid claim hclaim).1
      · rw [List.map_append, List.nodup_append']
        refine ⟨hclaims.places_nodup, by simp, fun place hplace hsame => ?_⟩
        obtain rfl : place = (chunk.filePath, occurrence.line) := by
          simpa [Claim.place] using hsame
        -- The place of an old claim was seen before.
        apply hfresh
        obtain ⟨claim, hclaim, heq⟩ := List.mem_map.mp hplace
        obtain ⟨hvisitedClaim, found, hfound, hfoundCall, hline, hfoundIn⟩ :=
          hclaims.valid claim hclaim
        refine (h.calls _).mpr ⟨(claim.1.filePath, found), ?_, hfoundCall, ?_⟩
        · exact List.mem_flatMap.mpr ⟨claim.1, hvisitedClaim,
            mem_chunkLines.mpr ⟨rfl, hfound, hfoundIn⟩⟩
        · rw [← heq, placeOf, Claim.place, hline]
      · rw [List.forall_mem_append]
        refine ⟨hold, fun claim hclaim => ?_⟩
        rw [List.mem_singleton.mp hclaim]
        exact ⟨List.mem_append_right _ (List.mem_singleton_self _), occurrence, hmem, hisCall, rfl,
          hin⟩
      · intro hlater place hplace
        rcases hplaces place hplace with hseen | ⟨found, hfound, -, rfl⟩
        · have hbefore : hasRoom search.limit sites.callers := by
            rw [← hcallers]
            exact hasRoom_of_append hlater
          obtain ⟨claim, hclaim, hat⟩ := hclaims.complete hbefore place hseen
          exact ⟨claim, List.mem_append_left _ hclaim, hat⟩
        · have hrange := of_decide_eq_true (List.mem_filter.mp hfound).2
          exact ⟨(chunk, occurrence.line), by simp, rfl, hrange.1, hrange.2⟩
  · next hkept =>
    refine ⟨⟨?_, hcalls, ⟨claims, ?_⟩, fun hyes => hyes⟩, hchunks⟩
    · exact ⟨hreferences.seen, hreferences.nodup, hreferences.source, hreferences.bound,
        hreferences.complete⟩
    · refine ⟨hcallers.trans hclaims.eq_map, hclaims.chunks_nodup, hclaims.places_nodup, hold, ?_,
        fun hroom place hplace => ?_⟩
      · intro n hn
        show after.callers.length ≤ n
        rw [hcallers]
        exact hclaims.bound n hn
      · have hnoCall : hasCall = false := by
          by_contra hcall
          rw [Bool.not_eq_false] at hcall
          exact hkept (by rw [hcall, Bool.true_and]; exact hroom)
        rcases hplaces place hplace with hseen | ⟨found, hfound, hcall, rfl⟩
        · have hbefore : hasRoom search.limit sites.callers := by
            rw [← hcallers]
            exact hroom
          exact hclaims.complete hbefore place hseen
        · have hseen : (chunk.filePath, found.line) ∈ sites.seenCallSites := by
            by_contra hfresh
            rw [hflag.mpr (.inr ⟨found, hfound, hcall, hfresh⟩)] at hnoCall
            cases hnoCall
          have hbefore : hasRoom search.limit sites.callers := by
            rw [← hcallers]
            exact hroom
          exact hclaims.complete hbefore _ hseen

/-! ## One round -/

/-- Chunks are visited one after another, until the lists are full. -/
theorem visitChunks_inv {visited order : List IndexedChunk} {sites : CallSites}
    (h : Visited search lines visited sites)
    (hkeys : ((visited ++ order).map IndexedChunk.vectorKey).Nodup) :
    ∃ more, more <+: order ∧
      Visited search lines (visited ++ more) (order.foldl (search.visitChunk lines) sites) ∧
      (order.foldl (search.visitChunk lines) sites).seenChunks = sites.seenChunks ∧
      ((order.foldl (search.visitChunk lines) sites).isDone = false → more = order) := by
  induction order generalizing visited sites with
  | nil => exact ⟨[], List.prefix_refl _, by simpa using h, rfl, fun _ => rfl⟩
  | cons chunk order ih =>
    rw [List.foldl_cons]
    cases hdone : sites.isDone with
    | true =>
      have hsame : ∀ chunks : List IndexedChunk,
          chunks.foldl (search.visitChunk lines) sites = sites := by
        intro chunks
        induction chunks with
        | nil => rfl
        | cons first chunks ih => rw [List.foldl_cons, visitChunk, if_pos hdone, ih]
      rw [visitChunk, if_pos hdone, hsame]
      exact ⟨[], List.nil_prefix, by simpa using h, rfl, fun hnot => by simp [hdone] at hnot⟩
    | false =>
      have hnew : chunk.vectorKey ∉ visited.map IndexedChunk.vectorKey := by
        rw [List.map_append, List.nodup_append'] at hkeys
        exact fun hmem => hkeys.2.2 hmem (by simp)
      obtain ⟨hstep, hseen⟩ := visitChunk_inv h hdone hnew
      rw [List.append_cons] at hkeys
      obtain ⟨more, hpre, hinv, hseen', hall⟩ := ih hstep hkeys
      refine ⟨chunk :: more, List.cons_prefix_cons.mpr ⟨rfl, hpre⟩, ?_, hseen'.trans hseen,
        fun hnot => by rw [hall hnot]⟩
      rw [List.append_cons]
      exact hinv

theorem visitOrder_perm {chunks : List IndexedChunk} (hnodup : chunks.Nodup) :
    (visitOrder chunks).Perm chunks := by
  have hmem : ∀ chunk, chunk ∈ visitOrder chunks ↔ chunk ∈ chunks := by
    intro chunk
    simp only [visitOrder, List.mem_flatMap, List.mem_insertionSort, List.mem_filter,
      decide_eq_true_eq]
    constructor
    · rintro ⟨path, -, hchunk, -⟩
      exact hchunk
    · intro hchunk
      have hpath : chunk.filePath ∈ keepFirst id (chunks.map IndexedChunk.filePath) := by
        have hkey : chunk.filePath ∈
            (keepFirst id (chunks.map IndexedChunk.filePath)).map id :=
          mem_map_keepFirst.mpr (by simpa using ⟨chunk, hchunk, rfl⟩)
        simpa using hkey
      exact ⟨chunk.filePath, hpath, hchunk, rfl⟩
  refine (List.perm_ext_iff_of_nodup ?_ hnodup).mpr hmem
  refine List.nodup_flatMap.mpr ⟨fun path _ => ?_, ?_⟩
  · exact (List.perm_insertionSort ChunkNotAfter _).nodup_iff.mpr (hnodup.filter _)
  · have hpaths : ((keepFirst id (chunks.map IndexedChunk.filePath)).insertionSort
        PathNotAfter).Nodup := by
      have hkeys : ((keepFirst id (chunks.map IndexedChunk.filePath)).map id).Nodup :=
        keepFirst_nodup _
      rw [List.map_id] at hkeys
      exact (List.perm_insertionSort PathNotAfter _).nodup_iff.mpr hkeys
    -- Chunks of two files are not the same.
    refine hpaths.imp fun {left right} hne => ?_
    intro chunk hleft hright
    simp only [List.mem_insertionSort, List.mem_filter, decide_eq_true_eq] at hleft hright
    exact hne (hleft.2.symm.trans hright.2)

/-- The chunks that rounds have visited: allowed candidates, by their keys. -/
structure Rounds (search : CallSiteSearch) (lines : Str → List SymbolLine)
    (languages : List Str) (candidates visited : List IndexedChunk) (sites : CallSites) : Prop where
  inv : Visited search lines visited sites
  keys_nodup : (visited.map IndexedChunk.vectorKey).Nodup
  allowed : ∀ chunk ∈ visited, chunk ∈ candidates ∧ isAllowed languages chunk
  seen : sites.isDone = false →
    ∀ key, key ∈ sites.seenChunks ↔ key ∈ visited.map IndexedChunk.vectorKey

theorem rounds_empty (search : CallSiteSearch) (lines : Str → List SymbolLine)
    (languages : List Str) (candidates : List IndexedChunk) :
    Rounds search lines languages candidates [] .empty := by
  have hbound : ∀ n ∈ search.limit, ([] : List (SearchHit Str)).length ≤ n :=
    fun n _ => Nat.zero_le n
  refine ⟨⟨⟨rfl, .nil, nofun, hbound, fun _ => nofun⟩, ?_, ⟨[], ?_⟩, nofun⟩, .nil, nofun, ?_⟩
  · intro place
    simp [CallSites.empty]
  · exact ⟨rfl, .nil, .nil, nofun, hbound, fun _ => nofun⟩
  · intro _ key
    simp [CallSites.empty]

theorem visitBatch_inv {languages : List Str} {candidates visited : List IndexedChunk}
    {sites : CallSites} (hcandidates : (candidates.map IndexedChunk.vectorKey).Nodup)
    (h : Rounds search lines languages candidates visited sites) (hdone : sites.isDone = false)
    {chunks : List IndexedChunk} (hchunks : ∀ chunk ∈ chunks, chunk ∈ candidates) :
    ∃ visited', Rounds search lines languages candidates visited'
        (search.visitBatch lines languages sites chunks) ∧
      ((search.visitBatch lines languages sites chunks).isDone = false →
        ∀ chunk ∈ chunks, isAllowed languages chunk → chunk ∈ visited') := by
  have hseen := h.seen hdone
  unfold visitBatch
  simp only
  generalize hfresh : retainFirst IndexedChunk.vectorKey sites.seenChunks
    (chunks.filter (isAllowed languages)) = fresh
  rw [retainFirst_eq] at hfresh
  -- The fresh chunks are allowed candidates with new keys.
  have hfreshKeys : (fresh.map IndexedChunk.vectorKey).Nodup := by
    rw [← hfresh]
    exact (keepFirst_nodup _).sublist (List.filter_sublist.map _)
  have hfreshMem : ∀ chunk ∈ fresh, (chunk ∈ candidates ∧ isAllowed languages chunk) ∧
      chunk.vectorKey ∉ visited.map IndexedChunk.vectorKey := by
    intro chunk hchunk
    rw [← hfresh, List.mem_filter, decide_eq_true_eq] at hchunk
    obtain ⟨hmem, hnew⟩ := hchunk
    obtain ⟨hin, hallowed⟩ := List.mem_filter.mp ((keepFirst_sublist _ _).subset hmem)
    exact ⟨⟨hchunks chunk hin, hallowed⟩, fun hold => hnew ((hseen _).mpr hold)⟩
  have hperm := visitOrder_perm (hfreshKeys.of_map _)
  have hkeys : ((visited ++ visitOrder fresh).map IndexedChunk.vectorKey).Nodup := by
    rw [List.map_append, List.nodup_append']
    refine ⟨h.keys_nodup, (hperm.map _).nodup_iff.mpr hfreshKeys, fun key hold hnew => ?_⟩
    obtain ⟨chunk, hchunk, rfl⟩ := List.mem_map.mp hnew
    exact (hfreshMem chunk (hperm.mem_iff.mp hchunk)).2 hold
  have hstart : Visited search lines visited
      { sites with seenChunks := fresh.map IndexedChunk.vectorKey ++ sites.seenChunks } := by
    obtain ⟨claims, hclaims⟩ := h.inv.callers
    have hreferences := h.inv.references
    refine ⟨⟨hreferences.seen, hreferences.nodup, hreferences.source, hreferences.bound,
      hreferences.complete⟩, h.inv.calls, ⟨claims, ?_⟩, h.inv.done⟩
    exact ⟨hclaims.eq_map, hclaims.chunks_nodup, hclaims.places_nodup, hclaims.valid, hclaims.bound,
      hclaims.complete⟩
  obtain ⟨more, hpre, hinv, hseen', hall⟩ := visitChunks_inv hstart hkeys
  refine ⟨visited ++ more, ⟨hinv, ?_, ?_, ?_⟩, ?_⟩
  · exact hkeys.sublist (((List.Sublist.refl visited).append hpre.sublist).map _)
  · rw [List.forall_mem_append]
    exact ⟨h.allowed, fun chunk hchunk =>
      (hfreshMem chunk (hperm.mem_iff.mp (hpre.subset hchunk))).1⟩
  · intro hnot key
    rw [hseen', hall hnot]
    simp only [List.map_append, List.mem_append]
    rw [hseen key, (hperm.map IndexedChunk.vectorKey).mem_iff, or_comm]
  · intro hnot chunk hchunk hallowed
    rw [hall hnot, List.mem_append, hperm.mem_iff]
    by_cases hold : chunk.vectorKey ∈ sites.seenChunks
    · obtain ⟨other, hother, hkey⟩ := List.mem_map.mp ((hseen _).mp hold)
      rw [List.inj_on_of_nodup_map hcandidates (h.allowed other hother).1 (hchunks chunk hchunk)
        hkey] at hother
      exact .inl hother
    · have hfirst : chunk.vectorKey ∈ (keepFirst IndexedChunk.vectorKey
          (chunks.filter (isAllowed languages))).map IndexedChunk.vectorKey :=
        mem_map_keepFirst.mpr (List.mem_map_of_mem (List.mem_filter.mpr ⟨hchunk, hallowed⟩))
      obtain ⟨other, hother, hkey⟩ := List.mem_map.mp hfirst
      have hmem : other ∈ fresh := by
        rw [← hfresh, List.mem_filter, decide_eq_true_eq, hkey]
        exact ⟨hother, hold⟩
      rw [List.inj_on_of_nodup_map hcandidates (hfreshMem other hmem).1.1 (hchunks chunk hchunk)
        hkey] at hmem
      exact .inr hmem

/-! ## All rounds -/

/-- What the search for literal candidates promises: with a limit, as many of the candidates as it
    allows, more of them for a higher limit, and whether these are all. -/
structure Documented (batch : Option Nat → LiteralChunkBatch) (candidates : List IndexedChunk) :
    Prop where
  keys_nodup : (candidates.map IndexedChunk.vectorKey).Nodup
  nodup : ∀ limit, (batch limit).chunks.Nodup
  subset : ∀ limit, ∀ chunk ∈ (batch limit).chunks, chunk ∈ candidates
  length : ∀ limit, (batch (some limit)).chunks.length = min limit candidates.length
  grows : ∀ limit limit', limit ≤ limit' →
    ∀ chunk ∈ (batch (some limit)).chunks, chunk ∈ (batch (some limit')).chunks
  exhausted : ∀ limit, (batch (some limit)).exhausted = true ↔
    ∀ chunk ∈ candidates, chunk ∈ (batch (some limit)).chunks
  unlimited : ∀ chunk ∈ candidates, chunk ∈ (batch none).chunks

theorem Documented.all_of_le {batch : Option Nat → LiteralChunkBatch}
    {candidates : List IndexedChunk} (h : Documented batch candidates) {limit : Nat}
    (hlimit : candidates.length ≤ limit) :
    ∀ chunk ∈ candidates, chunk ∈ (batch (some limit)).chunks := by
  have hlength : candidates.length ≤ (batch (some limit)).chunks.length := by
    rw [h.length, Nat.min_eq_right hlimit]
  have hperm := ((h.nodup (some limit)).subperm (h.subset (some limit))).perm_of_length_le hlength
  exact fun chunk hchunk => hperm.mem_iff.mpr hchunk

theorem widen_inv {batch : Option Nat → LiteralChunkBatch} {languages : List Str}
    {candidates : List IndexedChunk} (hbatch : Documented batch candidates) (sites : CallSites)
    (limit : Nat) (hlimit : 0 < limit) {visited : List IndexedChunk}
    (h : Rounds search lines languages candidates visited sites) (hdone : sites.isDone = false) :
    ∃ visited', Rounds search lines languages candidates visited'
        (search.widen lines batch languages sites limit hlimit) ∧
      ((search.widen lines batch languages sites limit hlimit).isDone = false →
        candidates.length ≤ search.candidateCeiling →
          ∀ chunk ∈ candidates, isAllowed languages chunk → chunk ∈ visited') := by
  fun_induction widen search lines batch languages sites limit hlimit generalizing visited with
  | case1 sites limit hlimit round after =>
    rename_i hstop
    obtain ⟨visited', hrounds, -⟩ := visitBatch_inv hbatch.keys_nodup h hdone
      (hbatch.subset (some limit))
    exact ⟨visited', hrounds, fun hnot => by simp [hnot] at hstop⟩
  | case2 sites limit hlimit round after hgoes =>
    rename_i hlast
    obtain ⟨visited', hrounds, hall⟩ := visitBatch_inv hbatch.keys_nodup h hdone
      (hbatch.subset (some limit))
    refine ⟨visited', hrounds, fun hnot hceiling chunk hchunk hallowed => ?_⟩
    refine hall hnot chunk ?_ hallowed
    rcases hlast with hexhausted | hreached
    · exact (hbatch.exhausted limit).mp hexhausted chunk hchunk
    · exact hbatch.all_of_le (Nat.le_trans hceiling hreached) chunk hchunk
  | case3 sites limit hlimit round after hgoes hlast hnext =>
    rename_i ih
    obtain ⟨visited', hrounds, -⟩ := visitBatch_inv hbatch.keys_nodup h hdone
      (hbatch.subset (some limit))
    exact ih hrounds (by simpa using hgoes)

theorem collectCallSites_inv (search : CallSiteSearch) (lines : Str → List SymbolLine)
    {batch : Option Nat → LiteralChunkBatch} (languages : List Str)
    {candidates : List IndexedChunk} (hbatch : Documented batch candidates) :
    ∃ visited, Rounds search lines languages candidates visited
        (search.collectCallSites lines batch languages) ∧
      ((search.collectCallSites lines batch languages).isDone = false →
        (∀ n ∈ search.limit, candidates.length ≤ search.candidateCeiling) →
          ∀ chunk ∈ candidates, isAllowed languages chunk → chunk ∈ visited) := by
  have hstart := rounds_empty search lines languages candidates
  unfold collectCallSites
  split
  · obtain ⟨visited, hrounds, hall⟩ := visitBatch_inv hbatch.keys_nodup hstart rfl
      (hbatch.subset none)
    exact ⟨visited, hrounds, fun hnot _ chunk hchunk hallowed =>
      hall hnot chunk (hbatch.unlimited chunk hchunk) hallowed⟩
  · next limit hlimit =>
    obtain ⟨visited, hrounds, hall⟩ := widen_inv hbatch .empty (search.firstLimit limit) _ hstart rfl
    exact ⟨visited, hrounds, fun hnot hceiling => hall hnot (hceiling limit hlimit)⟩

/-! ## Definitions -/

variable {zstd : Zstd}

theorem foldlM_ok {ε α σ : Type} {f : σ → α → Except ε σ} (h : ∀ state a, ∃ next, f state a = .ok next)
    (l : List α) (state : σ) : ∃ last, l.foldlM f state = .ok last := by
  induction l generalizing state with
  | nil => exact ⟨state, rfl⟩
  | cons a l ih =>
    obtain ⟨next, hnext⟩ := h state a
    obtain ⟨last, hlast⟩ := ih next
    exact ⟨last, by rw [List.foldlM_cons, hnext]; exact hlast⟩

theorem addDefinition_ok (search : CallSiteSearch) (query : SymbolQuery) (definitions : RelationshipDefinitions)
    (row : DefinitionRow zstd) :
    ∃ next, search.addDefinition query definitions row = .ok next := by
  unfold addDefinition
  simp only
  split
  · split
    · exact ⟨_, rfl⟩
    · rw [row.chunk.read_eq]
      exact ⟨_, rfl⟩
  · split
    · exact ⟨_, rfl⟩
    · rw [row.chunk.read_eq]
      exact ⟨_, rfl⟩

theorem addStore_ok (search : CallSiteSearch) (query : SymbolQuery) (normalized : Str)
    (tables : Tables zstd) (shadowed : Str → Bool) (tiers : List RelationshipDefinitions) :
    ∃ next, search.addStore query normalized tables shadowed tiers = .ok next := by
  refine foldlM_ok (fun tiers row => ?_) _ tiers
  simp only
  obtain ⟨next, hnext⟩ := addDefinition_ok search query
    (tiers[ownerTier query.owner row.owner]?.getD .empty) row
  exact ⟨_, by rw [hnext]; rfl⟩

/-- Stored texts are readable, so that the definitions are read without an error. -/
theorem definitions_ok (search : CallSiteSearch) (stores : Stores zstd) (name : Str) :
    ∃ definitions, search.definitions stores name = .ok definitions := by
  unfold definitions relationshipDefinitions
  simp only
  split
  · split
    · exact ⟨_, rfl⟩
    · obtain ⟨first, hfirst⟩ := addStore_ok search
        (parseSymbolQuery search.isXidContinue name) (normalizeSymbol search.isXidContinue
          (parseSymbolQuery search.isXidContinue name).name) stores.primary (fun _ => false)
        [.empty, .empty, .empty]
      rw [hfirst]
      cases stores.base with
      | none => exact ⟨_, rfl⟩
      | some base =>
        obtain ⟨second, hsecond⟩ := addStore_ok search
          (parseSymbolQuery search.isXidContinue name) (normalizeSymbol search.isXidContinue
            (parseSymbolQuery search.isXidContinue name).name) base.1 base.2 first
        simp only [bind, Except.bind, hsecond]
        exact ⟨_, rfl⟩
  · exact ⟨_, rfl⟩

/-! ## The lists of a search -/

theorem isDone_of_full {sites : CallSites} {visited : List IndexedChunk}
    (h : Visited search lines visited sites) (hfull : search.isFull sites = false) :
    sites.isDone = false := by
  by_contra hdone
  rw [Bool.not_eq_false] at hdone
  rw [h.done hdone] at hfull
  cases hfull

/-- The references are distinct lines of allowed candidates, and each caller has a call line of its
    own. No list is longer than the limit, and one that is asked for and shorter has all that the
    candidates have, if there are no more of them than the ceiling. -/
theorem searchCallSites_complete (search : CallSiteSearch) (stores : Stores zstd) (name : Str) :
    ∃ definitions, search.definitions stores name = .ok definitions ∧
      let query := parseSymbolQuery search.isXidContinue name
      let languages := search.allowedLanguages definitions
      let lines := search.symbolLines query definitions.goGenericFunction
      ∀ candidates : List IndexedChunk,
        Documented (search.exactLiteralChunks query.name (search.candidateType languages))
          candidates →
        ∃ callers references, search.searchCallSites stores name = .ok (callers, references) ∧
          (∀ n ∈ search.limit, callers.length ≤ n ∧ references.length ≤ n) ∧
          (references.map hitStart).Nodup ∧
          (∀ hit ∈ references, ∃ chunk ∈ candidates, isAllowed languages chunk ∧
            ∃ occurrence ∈ lines chunk.filePath, inChunk chunk occurrence ∧
              hit = referenceHit chunk.filePath occurrence) ∧
          (∃ claims : List Claim, callers = claims.map (fun claim => callerHit claim.1) ∧
            (claims.map fun claim => claim.1.vectorKey).Nodup ∧ (claims.map Claim.place).Nodup ∧
            ∀ claim ∈ claims, claim.1 ∈ candidates ∧ isAllowed languages claim.1 ∧
              ∃ occurrence ∈ lines claim.1.filePath, occurrence.isCall ∧
                occurrence.line = claim.2 ∧ inChunk claim.1 occurrence) ∧
          ((∀ n ∈ search.limit, candidates.length ≤ search.candidateCeiling) →
            (search.requestedMode ≠ some .callers → hasRoom search.limit references →
              ∀ chunk ∈ candidates, isAllowed languages chunk →
                ∀ occurrence ∈ lines chunk.filePath, inChunk chunk occurrence →
                  ∃ hit ∈ references, hit.filePath = chunk.filePath ∧
                    hit.startLine = occurrence.line) ∧
            (search.requestedMode ≠ some .references → hasRoom search.limit callers →
              ∀ chunk ∈ candidates, isAllowed languages chunk →
                ∀ occurrence ∈ lines chunk.filePath, occurrence.isCall → inChunk chunk occurrence →
                  ∃ hit ∈ callers, hit.filePath = chunk.filePath ∧
                    hit.startLine ≤ occurrence.line ∧ occurrence.line ≤ hit.endLine)) := by
  obtain ⟨definitions, hdefinitions⟩ := search.definitions_ok stores name
  refine ⟨definitions, hdefinitions, fun candidates hbatch => ?_⟩
  unfold searchCallSites
  split
  · next hzero =>
    refine ⟨[], [], rfl, by simp, .nil, nofun, ⟨[], rfl, .nil, .nil, nofun⟩, fun _ => ⟨?_, ?_⟩⟩
    · intro _ hroom
      simp [hasRoom, hzero] at hroom
    · intro _ hroom
      simp [hasRoom, hzero] at hroom
  · obtain ⟨visited, hrounds, hall⟩ := collectCallSites_inv search
      (search.symbolLines (parseSymbolQuery search.isXidContinue name)
        definitions.goGenericFunction) (search.allowedLanguages definitions) hbatch
    rw [hdefinitions]
    refine ⟨_, _, rfl, ?_⟩
    generalize search.collectCallSites _ _ _ = sites at hrounds hall ⊢
    obtain ⟨claims, hclaims⟩ := hrounds.inv.callers
    have hreferences := hrounds.inv.references
    refine ⟨fun n hn => ⟨hclaims.bound n hn, hreferences.bound n hn⟩, hreferences.nodup, ?_,
      ⟨claims, hclaims.eq_map, hclaims.chunks_nodup, hclaims.places_nodup, ?_⟩,
      fun hceiling => ⟨?_, ?_⟩⟩
    · intro hit hhit
      obtain ⟨line, hline, rfl⟩ := hreferences.source hit hhit
      obtain ⟨chunk, hchunk, hline⟩ := List.mem_flatMap.mp hline
      obtain ⟨hpath, hmem, hin⟩ := mem_chunkLines.mp hline
      obtain ⟨hcandidate, hallowed⟩ := hrounds.allowed chunk hchunk
      exact ⟨chunk, hcandidate, hallowed, line.2, hmem, hin, by rw [hpath]⟩
    · intro claim hclaim
      obtain ⟨hvisited, hcall⟩ := hclaims.valid claim hclaim
      obtain ⟨hcandidate, hallowed⟩ := hrounds.allowed claim.1 hvisited
      exact ⟨hcandidate, hallowed, hcall⟩
    · intro hmode hroom chunk hchunk hallowed occurrence hmem hin
      have hfull : search.isFull sites = false := by
        unfold isFull
        split <;> simp_all
      have hvisited := hall (isDone_of_full hrounds.inv hfull) hceiling chunk hchunk hallowed
      have hplace := hreferences.complete hroom (chunk.filePath, occurrence)
        (List.mem_flatMap.mpr ⟨chunk, hvisited, mem_chunkLines.mpr ⟨rfl, hmem, hin⟩⟩)
      obtain ⟨hit, hhit, heq⟩ := List.mem_map.mp hplace
      rw [hitStart, placeOf, Prod.mk.injEq] at heq
      exact ⟨hit, hhit, heq⟩
    · intro hmode hroom chunk hchunk hallowed occurrence hmem hcall hin
      have hfull : search.isFull sites = false := by
        unfold isFull
        split <;> simp_all
      have hvisited := hall (isDone_of_full hrounds.inv hfull) hceiling chunk hchunk hallowed
      have hplace := (hrounds.inv.calls (chunk.filePath, occurrence.line)).mpr
        ⟨(chunk.filePath, occurrence),
          List.mem_flatMap.mpr ⟨chunk, hvisited, mem_chunkLines.mpr ⟨rfl, hmem, hin⟩⟩, hcall, rfl⟩
      obtain ⟨claim, hclaim, hpath, hstart, hend⟩ := hclaims.complete hroom _ hplace
      refine ⟨callerHit claim.1, ?_, hpath, hstart, hend⟩
      rw [hclaims.eq_map]
      exact List.mem_map_of_mem (f := fun claim : Claim => callerHit claim.1) hclaim

def sampleChunk : IndexedChunk :=
  ⟨"a.rs".toList, 1, 3, "rust".toList, "Function".toList, "fn g() =\n  f()\n".toList, 7, false⟩

def sampleSearch : CallSiteSearch where
  isXidContinue c := c.isAlphanum || c == '_'
  limit := some 5
  typeFilter := none
  requestedMode := some .callers
  hasGoGeneric _ _ _ := false
  exactLiteralChunks _ _ limit :=
    let chunks := limit.elim [sampleChunk] fun limit => [sampleChunk].take limit
    ⟨chunks, chunks == [sampleChunk]⟩
  symbolLines _ _ _ := [⟨2, "f()".toList, true⟩]

theorem sampleSearch_documented (name : Str) (type : Option Str) :
    Documented (sampleSearch.exactLiteralChunks name type) [sampleChunk] where
  keys_nodup := List.nodup_singleton _
  nodup limit := by
    cases limit with
    | none => exact List.nodup_singleton _
    | some limit => exact (List.nodup_singleton _).sublist (List.take_sublist _ _)
  subset limit := by
    cases limit with
    | none => exact fun _ h => h
    | some limit => exact fun _ h => List.mem_of_mem_take h
  length limit := List.length_take
  grows limit limit' h := by
    exact fun chunk hchunk => List.take_subset_take_left _ h hchunk
  exhausted limit := by
    cases limit with
    | zero => simp [sampleSearch]
    | succ limit => simp [sampleSearch]
  unlimited _ h := h

/-- The chunk is the caller of its line, as the stores define `f` in its language. -/
theorem searchCallSites_complete_sample :
    ∃ callers references,
      sampleSearch.searchCallSites SymbolSearch.sampleStores "f".toList =
        .ok (callers, references) ∧
      ∃ hit ∈ callers, hit.filePath = sampleChunk.filePath ∧ hit.startLine ≤ 2 ∧
        2 ≤ hit.endLine := by
  obtain ⟨definitions, hdefinitions, h⟩ :=
    searchCallSites_complete sampleSearch SymbolSearch.sampleStores "f".toList
  have hrust : definitions = ⟨["rust".toList], false⟩ := by
    have heval : sampleSearch.definitions SymbolSearch.sampleStores "f".toList =
        .ok ⟨["rust".toList], false⟩ := by rfl
    rw [heval] at hdefinitions
    exact (Except.ok.inj hdefinitions).symm
  subst hrust
  obtain ⟨callers, references, hresult, -, -, -, ⟨claims, rfl, hkeys, -, hclaims⟩, hall⟩ :=
    h [sampleChunk] (sampleSearch_documented _ _)
  refine ⟨_, references, hresult, ?_⟩
  -- There is no second candidate that could be a caller.
  have hlength : (claims.map fun claim => claim.1.vectorKey).length ≤
      [sampleChunk.vectorKey].length := by
    refine (hkeys.subperm fun key hkey => ?_).length_le
    obtain ⟨claim, hclaim, rfl⟩ := List.mem_map.mp hkey
    rw [List.mem_singleton.mp (hclaims claim hclaim).1]
    exact List.mem_singleton_self _
  have hroom : hasRoom sampleSearch.limit (claims.map fun claim => callerHit claim.1) := by
    simp only [List.length_map, List.length_singleton] at hlength
    simp only [hasRoom, sampleSearch, Option.all_some, decide_eq_true_eq, List.length_map]
    omega
  exact (hall (by decide)).2 (by decide) hroom sampleChunk List.mem_cons_self (by decide)
    ⟨2, "f()".toList, true⟩ List.mem_cons_self rfl (by decide)

end CallSiteSearch

end Ivygrep.Native.Symbols
