import Ivygrep.ForStd.List
import Ivygrep.Native.QueryResults
import Ivygrep.Spec.ByteCacheCorrect

/-!
# No cached result outlives an invalidation

Each entry of the cache was stored by a search since whose reading of the revision none of the
workspaces of its key was removed. That rests on the revision, which every removal moves on: a
search that stores finds the revision as it was, and so there was no removal in between, unless
there were `2 ^ 64` of them.

## Key results

- `Inv.step`: what every step keeps
- `run_inv`: what holds after every run
- `lookup_storedSince`: what every lookup of a run has found
-/

namespace Ivygrep.Native.QueryResults

open ForStd

variable {Signature Request Hit : Type}

/-! ## Events -/

section Events


/-- A removal of one of the key's workspaces. -/
def Event.removes (key : QueryCacheKey Signature Request) : Event Signature Request Hit → Bool
  | .remove _ workspaceId => key.workspaceIds.contains workspaceId
  | _ => false

/-- A store under the key that is taken. -/
def Event.stores [DecidableEq Signature] [DecidableEq Request]
    (key : QueryCacheKey Signature Request) : Event Signature Request Hit → Bool
  | .store _ stored _ taken => stored = key && taken
  | _ => false

/-- A removal moves the revision on. -/
def Event.isRemove : Event Signature Request Hit → Bool
  | .remove _ _ => true
  | _ => false

/-- The hits are what the last store under the key has left there. The search that stored them has
    read its revision after every removal of the key's workspaces. -/
def StoredSince [DecidableEq Signature] [DecidableEq Request]
    (events : List (Event Signature Request Hit)) (key : QueryCacheKey Signature Request)
    (hits : List Hit) : Prop :=
  ∃ writer earlier reading rest,
    events = earlier ++ .readRevision writer key.workspaceIds key.request ::
      (reading ++ .store writer key hits true :: rest) ∧
    (∀ event ∈ reading ++ rest, event.removes key = false) ∧
    ∀ event ∈ rest, event.stores key = false

/-- Fewer than `2 ^ 64` removals come between a search's reading of the revision and its store. -/
def FewRemovals (events : List (Event Signature Request Hit)) : Prop :=
  ∀ earlier search workspaceIds request between key hits taken rest,
    events = earlier ++ .readRevision search workspaceIds request ::
      (between ++ .store search key hits taken :: rest) →
    between.countP Event.isRemove < 2 ^ 64

theorem StoredSince.concat [DecidableEq Signature] [DecidableEq Request]
    {events : List (Event Signature Request Hit)}
    {key : QueryCacheKey Signature Request} {hits : List Hit} (h : StoredSince events key hits)
    {event : Event Signature Request Hit} (hremoves : event.removes key = false)
    (hstores : event.stores key = false) : StoredSince (events ++ [event]) key hits := by
  obtain ⟨writer, earlier, reading, rest, rfl, hremoved, hstored⟩ := h
  refine ⟨writer, earlier, reading, rest ++ [event], by simp, fun other hother => ?_,
    fun other hother => ?_⟩
  · rw [← List.append_assoc] at hother
    rcases List.mem_append.mp hother with hother | hother
    · exact hremoved other hother
    · rwa [List.mem_singleton.mp hother]
  · rcases List.mem_append.mp hother with hother | hother
    · exact hstored other hother
    · rwa [List.mem_singleton.mp hother]

theorem FewRemovals.of_append {events more : List (Event Signature Request Hit)}
    (h : FewRemovals (events ++ more)) : FewRemovals events := by
  rintro earlier search workspaceIds request between key hits taken rest rfl
  exact h earlier search workspaceIds request between key hits taken (rest ++ more) (by simp)

/-- A run with few removals. -/
theorem FewRemovals.of_count {events : List (Event Signature Request Hit)}
    (h : events.countP Event.isRemove < 2 ^ 64) : FewRemovals events := by
  rintro earlier search workspaceIds request between key hits taken rest rfl
  apply Nat.lt_of_le_of_lt _ h
  apply List.Sublist.countP_le
  exact ((List.sublist_append_left between _).cons _).trans (List.sublist_append_right earlier _)

end Events

variable [DecidableEq Signature] [DecidableEq Request]

/-! ## The cache -/

section Cache

variable {results : ByteCache (QueryCacheKey Signature Request) (List Hit)}

/-- Removing keys one after another. -/
theorem remove_keys (hexact : results.Exact) (keys : List (QueryCacheKey Signature Request)) :
    ∃ after, keys.foldlM ByteCache.remove results = some after ∧ after.Exact ∧
      ByteCache.SameLimits results after ∧
      after.entries.entries.Sublist results.entries.entries ∧
      ∀ entry ∈ after.entries.entries, entry.1 ∉ keys := by
  induction keys generalizing results with
  | nil => exact ⟨results, rfl, hexact, ⟨rfl, rfl⟩, List.Sublist.refl _, by simp⟩
  | cons key keys ih =>
    obtain ⟨next, hnext, hexactNext, hsame, hentries⟩ := ByteCache.remove_spec hexact key
    obtain ⟨after, hafter, hexactAfter, hsameAfter, hsublist, hgone⟩ := ih hexactNext
    rw [hentries] at hsublist
    refine ⟨after, ?_, hexactAfter, ⟨hsameAfter.1.trans hsame.1, hsameAfter.2.trans hsame.2⟩,
      hsublist.trans (eraseKey_sublist key _), fun entry hentry => ?_⟩
    · rw [List.foldlM_cons, hnext]
      exact hafter
    · rw [List.mem_cons, not_or]
      refine ⟨fun hkey => ?_, hgone entry hentry⟩
      have hmem : entry.1 ∈ (eraseKey key results.entries.entries).map Prod.fst :=
        List.mem_map_of_mem (hsublist.subset hentry)
      rw [hkey] at hmem
      exact not_mem_eraseKey key results.entries.entries hmem

theorem mem_of_mem_get {key : QueryCacheKey Signature Request}
    {entry : QueryCacheKey Signature Request × (List Hit × Nat)}
    (h : entry ∈ (results.get key).1.entries.entries) : entry ∈ results.entries.entries := by
  have hget : (results.get key).1.entries.entries = _ := results.entries.get_entries key
  rw [hget] at h
  rcases List.mem_append.mp h with h | h
  · obtain ⟨value, hvalue, rfl⟩ := Option.map_eq_some_iff.mp (Option.mem_toList.mp h)
    exact (lookup_eq_some_iff_of_nodup results.entries.nodup).mp hvalue
  · exact (eraseKey_sublist key _).subset h

end Cache

variable {cache : QueryResultCache Signature Request Hit}

/-- A removal leaves no entry with the workspace, and moves the revision on. -/
theorem removeWorkspace_spec (hexact : cache.results.Exact) (workspaceId : Str) :
    ∃ after, cache.removeWorkspace workspaceId = some after ∧ after.results.Exact ∧
      after.results.maxBytes = cache.results.maxBytes ∧ after.revision = cache.revision + 1 ∧
      ∀ entry ∈ after.results.entries.entries, entry ∈ cache.results.entries.entries ∧
        entry.1.workspaceIds.contains workspaceId = false := by
  obtain ⟨results, hresults, hexactAfter, hsame, hsublist, hgone⟩ := remove_keys hexact
    ((cache.results.entries.entries.map Prod.fst).filter fun key =>
      key.workspaceIds.contains workspaceId)
  refine ⟨⟨results, cache.revision + 1⟩, ?_, hexactAfter, hsame.1, rfl, fun entry hentry => ?_⟩
  · rw [QueryResultCache.removeWorkspace, hresults]
    rfl
  · have hold := hsublist.subset hentry
    refine ⟨hold, ?_⟩
    by_contra hcontains
    rw [Bool.not_eq_false] at hcontains
    exact hgone entry hentry (List.mem_filter.mpr ⟨List.mem_map_of_mem hold, hcontains⟩)

/-- What is stored goes in front, and other entries may leave for it. -/
theorem insert_spec (hexact : cache.results.Exact)
    {queryResultBytes : QueryCacheKey Signature Request → List Hit → Nat}
    {key : QueryCacheKey Signature Request} {hits : List Hit}
    (hfits : cache.results.fits (queryResultBytes key hits) = true) :
    ∃ after, cache.insert queryResultBytes key hits = some after ∧ after.results.Exact ∧
      after.results.maxBytes = cache.results.maxBytes ∧ after.revision = cache.revision ∧
      ∃ kept, after.results.entries.entries = (key, (hits, queryResultBytes key hits)) ::
        (eraseKey key cache.results.entries.entries).take kept := by
  obtain ⟨results, hresults, hexactAfter, hsame, hentries, -⟩ :=
    ByteCache.insert_spec hexact key hits (queryResultBytes key hits)
  refine ⟨⟨results, cache.revision⟩, ?_, hexactAfter, hsame.1, rfl,
    hentries (of_decide_eq_true hfits)⟩
  rw [QueryResultCache.insert, hresults]
  rfl

/-! ## One step -/

/-- What a search has read: the revision, its workspaces and its request. -/
def SearchPhase.read : SearchPhase Signature Request → Option (UInt64 × List Str × Request)
  | .started revision workspaceIds request => some (revision, workspaceIds, request)
  | .keyed revision key => some (revision, key.workspaceIds, key.request)
  | .looked revision key => some (revision, key.workspaceIds, key.request)
  | .finished => none

/-- A search has read its revision, and every removal since then has moved it on. -/
def ReadSince (events : List (Event Signature Request Hit))
    (state : DaemonState Signature Request Hit) (search : Nat)
    (read : UInt64 × List Str × Request) : Prop :=
  ∃ earlier between, events = earlier ++ .readRevision search read.2.1 read.2.2 :: between ∧
    (state.queryResultCacheEnabled = true →
      state.queryResults.revision = read.1 + UInt64.ofNat (between.countP Event.isRemove))

/-- What holds after the events of a run. -/
structure Inv (events : List (Event Signature Request Hit))
    (state : DaemonState Signature Request Hit) : Prop where
  exact : state.queryResults.results.Exact
  maxBytes : state.queryResults.results.maxBytes = maxQueryCacheBytes
  stored : ∀ entry ∈ state.queryResults.results.entries.entries,
    StoredSince events entry.1 entry.2.1
  reading : ∀ search phase read, state.searches search = some phase → phase.read = some read →
    ReadSince events state search read

variable {events : List (Event Signature Request Hit)}
  {state next : DaemonState Signature Request Hit}

theorem ReadSince.concat {search : Nat} {read : UInt64 × List Str × Request}
    (h : ReadSince events state search read) {event : Event Signature Request Hit}
    (hevent : event.isRemove = false)
    (henabled : next.queryResultCacheEnabled = state.queryResultCacheEnabled)
    (hrevision : next.queryResults.revision = state.queryResults.revision) :
    ReadSince (events ++ [event]) next search read := by
  obtain ⟨earlier, between, rfl, hread⟩ := h
  refine ⟨earlier, between ++ [event], by simp, fun h => ?_⟩
  rw [hrevision, hread (henabled ▸ h), List.countP_append, List.countP_singleton, hevent]
  rfl

/-- A removal counts. -/
theorem ReadSince.concat_remove {search : Nat} {read : UInt64 × List Str × Request}
    (h : ReadSince events state search read) {event : Event Signature Request Hit}
    (hevent : event.isRemove = true)
    (henabled : next.queryResultCacheEnabled = state.queryResultCacheEnabled)
    (hrevision : next.queryResults.revision = state.queryResults.revision + 1) :
    ReadSince (events ++ [event]) next search read := by
  obtain ⟨earlier, between, rfl, hread⟩ := h
  refine ⟨earlier, between ++ [event], by simp, fun h => ?_⟩
  rw [hrevision, hread (henabled ▸ h), List.countP_append, List.countP_singleton, hevent,
    if_pos rfl, UInt64.ofNat_add, UInt64.add_assoc]
  rfl

/-- A search that finds the revision as it was has seen no removal. -/
theorem ReadSince.no_removal {search : Nat} {read : UInt64 × List Str × Request}
    (h : ReadSince events state search read) (henabled : state.queryResultCacheEnabled = true)
    (hrevision : state.queryResults.revision = read.1) {key : QueryCacheKey Signature Request}
    {hits : List Hit} {taken : Bool}
    (hfew : FewRemovals (events ++ [.store search key hits taken])) :
    ∃ earlier between, events = earlier ++ .readRevision search read.2.1 read.2.2 :: between ∧
      ∀ event ∈ between, event.isRemove = false := by
  obtain ⟨earlier, between, rfl, hread⟩ := h
  refine ⟨earlier, between, rfl, ?_⟩
  have hlt := hfew earlier search read.2.1 read.2.2 between key hits taken [] (by simp)
  have hzero : UInt64.ofNat (between.countP Event.isRemove) = 0 := by
    have hsum := hread henabled
    rw [hrevision] at hsum
    exact UInt64.add_eq_left.mp hsum.symm
  have hcount : between.countP Event.isRemove = 0 := by
    have hmod := congrArg UInt64.toNat hzero
    rw [UInt64.toNat_ofNat', Nat.mod_eq_of_lt hlt] at hmod
    exact hmod
  simpa using List.countP_eq_zero.mp hcount

/-! ## Every step -/

/-- A step that takes nothing into the cache keeps what was stored and what was read, apart from the
    search whose step it is. -/
theorem Inv.frame (h : Inv events state) {event : Event Signature Request Hit}
    (hremove : event.isRemove = false) (hstore : ∀ key, event.stores key = false)
    (henabled : next.queryResultCacheEnabled = state.queryResultCacheEnabled)
    (hrevision : next.queryResults.revision = state.queryResults.revision)
    (hexact : next.queryResults.results.Exact)
    (hmax : next.queryResults.results.maxBytes = state.queryResults.results.maxBytes)
    (hentries : ∀ entry ∈ next.queryResults.results.entries.entries,
      entry ∈ state.queryResults.results.entries.entries)
    (hreading : ∀ search phase read, next.searches search = some phase → phase.read = some read →
      ReadSince (events ++ [event]) next search read ∨
        ∃ before, state.searches search = some before ∧ before.read = some read) :
    Inv (events ++ [event]) next where
  exact := hexact
  maxBytes := hmax.trans h.maxBytes
  stored entry hentry := by
    have hremoves : event.removes entry.1 = false := by
      cases event with
      | remove => cases hremove
      | _ => rfl
    exact (h.stored entry (hentries entry hentry)).concat hremoves (hstore entry.1)
  reading search phase read hphase hread := by
    rcases hreading search phase read hphase hread with hnew | ⟨before, hbefore, hread⟩
    · exact hnew
    · exact (h.reading search before read hbefore hread).concat hremove henabled hrevision

/-- The other searches are where they were. -/
theorem reading_setSearch {base : DaemonState Signature Request Hit}
    (hbase : base.searches = state.searches) {own : Nat} {moved : SearchPhase Signature Request}
    {P : Nat → UInt64 × List Str × Request → Prop}
    (hown : ∀ read, moved.read = some read →
      P own read ∨ ∃ before, state.searches own = some before ∧ before.read = some read)
    (search : Nat) (phase : SearchPhase Signature Request) (read : UInt64 × List Str × Request)
    (hphase : (base.setSearch own moved).searches search = some phase)
    (hread : phase.read = some read) :
    P search read ∨ ∃ before, state.searches search = some before ∧ before.read = some read := by
  simp only [DaemonState.setSearch] at hphase
  split at hphase
  · next heq =>
    obtain rfl := Option.some.inj hphase
    rw [heq]
    exact hown read hread
  · rw [hbase] at hphase
    exact .inr ⟨phase, hphase, hread⟩

/-- A lookup uses an entry and changes no other. -/
theorem cachedQueryResults_spec (hexact : state.queryResults.results.Exact)
    (key : QueryCacheKey Signature Request) (revision : UInt64) :
    (state.cachedQueryResults key revision).1.queryResultCacheEnabled =
        state.queryResultCacheEnabled ∧
      (state.cachedQueryResults key revision).1.searches = state.searches ∧
      (state.cachedQueryResults key revision).1.queryResults.revision =
        state.queryResults.revision ∧
      (state.cachedQueryResults key revision).1.queryResults.results.Exact ∧
      (state.cachedQueryResults key revision).1.queryResults.results.maxBytes =
        state.queryResults.results.maxBytes ∧
      (∀ entry ∈ (state.cachedQueryResults key revision).1.queryResults.results.entries.entries,
        entry ∈ state.queryResults.results.entries.entries) ∧
      ∀ hits, (state.cachedQueryResults key revision).2 = some hits →
        ∃ bytes, (key, (hits, bytes)) ∈ state.queryResults.results.entries.entries := by
  unfold DaemonState.cachedQueryResults
  split
  · exact ⟨rfl, rfl, rfl, hexact, rfl, fun _ h => h, fun _ h => by cases h⟩
  · split
    · exact ⟨rfl, rfl, rfl, hexact, rfl, fun _ h => h, fun _ h => by cases h⟩
    · refine ⟨rfl, rfl, rfl, ByteCache.get_exact hexact key, rfl, fun _ h => mem_of_mem_get h,
        fun hits hhits => ?_⟩
      obtain ⟨⟨found, bytes⟩, hfound, rfl⟩ := Option.map_eq_some_iff.mp hhits
      rw [LruCache.get_snd] at hfound
      have hnodup := state.queryResults.results.entries.nodup
      exact ⟨bytes, (lookup_eq_some_iff_of_nodup hnodup).mp hfound⟩

variable {queryResultBytes : QueryCacheKey Signature Request → List Hit → Nat}

/-- What a search stores, it has found with the revision as it was. -/
theorem Inv.store (h : Inv events state) {search : Nat} {key : QueryCacheKey Signature Request}
    {hits : List Hit} {taken : Bool} {revision : UInt64}
    (hfew : FewRemovals (events ++ [.store search key hits taken]))
    (hphase : state.searches search = some (.looked revision key))
    (htaken : state.takesQueryResults queryResultBytes key hits revision = taken)
    (hnext : (state.storeQueryResults queryResultBytes key hits revision).map
      (·.setSearch search .finished) = some next) :
    Inv (events ++ [.store search key hits taken]) next := by
  obtain ⟨stored, hstored, rfl⟩ := Option.map_eq_some_iff.mp hnext
  unfold DaemonState.storeQueryResults at hstored
  rw [htaken] at hstored
  cases taken with
  | false =>
    obtain rfl := Option.some.inj hstored
    exact h.frame rfl (fun other => by simp [Event.stores]) rfl rfl h.exact rfl (fun _ h => h)
      (reading_setSearch rfl fun _ h => by cases h)
  | true =>
    simp only [DaemonState.takesQueryResults, Bool.and_eq_true, beq_iff_eq] at htaken
    obtain ⟨⟨⟨henabled, hrevision⟩, -⟩, hfits⟩ := htaken
    obtain ⟨after, hafter, hexact, hmax, hsame, kept, hentries⟩ := insert_spec h.exact hfits
    rw [if_pos rfl, hafter] at hstored
    obtain rfl := Option.some.inj hstored
    obtain ⟨earlier, between, hevents, hbetween⟩ :=
      (h.reading search _ _ hphase rfl).no_removal henabled hrevision hfew
    refine ⟨hexact, hmax.trans h.maxBytes, fun entry hentry => ?_,
      fun other phase read hother hread => ?_⟩
    · have hmem : entry ∈ after.results.entries.entries := hentry
      rw [hentries] at hmem
      rcases List.mem_cons.mp hmem with rfl | hold
      · refine ⟨search, earlier, between, [], by simp [hevents], fun event hevent => ?_, by simp⟩
        rw [List.append_nil] at hevent
        have := hbetween event hevent
        cases event with
        | remove => cases this
        | _ => rfl
      · have hold := List.mem_of_mem_take hold
        have hne : entry.1 ≠ key := by
          intro heq
          have hmem := List.mem_map_of_mem (f := Prod.fst) hold
          rw [heq] at hmem
          exact not_mem_eraseKey key _ hmem
        have hkeeps : Event.stores entry.1 (.store search key hits true) = false := by
          simp [Event.stores, Ne.symm hne]
        exact (h.stored entry ((eraseKey_sublist key _).subset hold)).concat rfl hkeeps
    · rcases reading_setSearch (P := fun _ _ => False) rfl (fun _ h => by cases h) other phase read
        hother hread with hfalse | ⟨before, hbefore, hread⟩
      · exact hfalse.elim
      · exact (h.reading other before read hbefore hread).concat rfl rfl hsame

/-- What a removal leaves was stored by searches that have read the new revision or have seen the
    removal. -/
theorem Inv.remove (h : Inv events state) {call : Nat} {workspaceId : Str} {left : List Str}
    (hnext : (state.queryResults.removeWorkspace workspaceId).map (fun queryResults =>
      { state with queryResults := queryResults }.setClear call left) = some next) :
    Inv (events ++ [.remove call workspaceId]) next := by
  obtain ⟨after, hafter, hexact, hmax, hrevision, hentries⟩ :=
    removeWorkspace_spec h.exact workspaceId
  rw [hafter] at hnext
  obtain rfl := Option.some.inj hnext
  refine ⟨hexact, hmax.trans h.maxBytes, fun entry hentry => ?_,
    fun search phase read hphase hread => ?_⟩
  · obtain ⟨hold, hother⟩ := hentries entry hentry
    exact (h.stored entry hold).concat hother rfl
  · exact (h.reading search phase read hphase hread).concat_remove rfl rfl hrevision

/-- Results from after a removal. -/
theorem StoredSince.after_removal {key : QueryCacheKey Signature Request} {hits : List Hit}
    {earlier middle : List (Event Signature Request Hit)} {call : Nat} {workspaceId : Str}
    (h : StoredSince (earlier ++ .remove call workspaceId :: middle) key hits)
    (hkey : key.workspaceIds.contains workspaceId = true) :
    ∃ writer first rest,
      middle = first ++ .readRevision writer key.workspaceIds key.request :: rest ∧
        .store writer key hits true ∈ rest := by
  obtain ⟨writer, before, reading, rest, heq, hremoves, -⟩ := h
  have hremove : (Event.remove call workspaceId : Event Signature Request Hit).removes key = true :=
    hkey
  rcases List.append_eq_append_iff.mp heq.symm with
    ⟨between, hearlier, hlater⟩ | ⟨between, hbefore, hlater⟩
  · -- The removal is not among what comes after the reading.
    have hmem : .remove call workspaceId ∈
        .readRevision writer key.workspaceIds key.request ::
          (reading ++ .store writer key hits true :: rest) := by
      rw [hlater]
      simp
    have hrest : .remove call workspaceId ∈ reading ++ rest := by simpa using hmem
    rw [hremoves _ hrest] at hremove
    cases hremove
  · cases between with
    | nil => cases hlater
    | cons event between =>
      exact ⟨writer, between, _, (List.cons.inj hlater).2, by simp⟩

/-- What is stored is found again. -/
theorem cached_of_store {key : QueryCacheKey Signature Request} {hits : List Hit}
    {revision : UInt64} (hexact : state.queryResults.results.Exact)
    (htakes : state.takesQueryResults queryResultBytes key hits revision = true) :
    ∃ next, state.storeQueryResults queryResultBytes key hits revision = some next ∧
      (next.cachedQueryResults key revision).2 = some hits := by
  have htaken := htakes
  simp only [DaemonState.takesQueryResults, Bool.and_eq_true, beq_iff_eq] at htaken
  obtain ⟨⟨⟨henabled, hrevision⟩, -⟩, hfits⟩ := htaken
  obtain ⟨after, hafter, -, -, hsame, kept, hentries⟩ := insert_spec hexact hfits
  refine ⟨{ state with queryResults := after }, ?_, ?_⟩
  · rw [DaemonState.storeQueryResults, if_pos htakes, hafter]
    rfl
  · have hget : (after.get key).2 = some hits := by
      show (after.results.entries.get key).2.map Prod.fst = some hits
      rw [LruCache.get_snd, LruCache.peek, hentries]
      simp
    simp only [DaemonState.cachedQueryResults]
    rw [henabled, hsame, hrevision]
    simpa using hget

variable [DecidableEq Hit]

/-- Every step keeps the invariant. -/
theorem Inv.step (h : Inv events state) {event : Event Signature Request Hit}
    (hfew : FewRemovals (events ++ [event]))
    (hnext : state.step queryResultBytes event = some next) : Inv (events ++ [event]) next := by
  cases event with
  | readRevision search workspaceIds request =>
    simp only [DaemonState.step] at hnext
    split at hnext
    · obtain rfl := Option.some.inj hnext
      refine h.frame rfl (fun _ => rfl) rfl rfl h.exact rfl (fun _ h => h)
        (reading_setSearch rfl fun read hread => .inl ?_)
      obtain rfl := Option.some.inj hread
      refine ⟨events, [], rfl, fun henabled => ?_⟩
      have henabled : state.queryResultCacheEnabled = true := henabled
      simp [DaemonState.setSearch, DaemonState.queryCacheRevision, henabled]
    · cases hnext
  | stamp search signatures =>
    simp only [DaemonState.step] at hnext
    split at hnext
    · next revision workspaceIds request hphase =>
      obtain rfl := Option.some.inj hnext
      exact h.frame rfl (fun _ => rfl) rfl rfl h.exact rfl (fun _ h => h)
        (reading_setSearch rfl fun read hread => .inr ⟨_, hphase, hread⟩)
    · cases hnext
  | lookup search key found =>
    simp only [DaemonState.step] at hnext
    split at hnext
    · next revision own hphase =>
      split at hnext
      · next hfound =>
        obtain ⟨rfl, -⟩ := hfound
        obtain rfl := Option.some.inj hnext
        obtain ⟨henabled, hsearches, hrevision, hexact, hmax, hentries, -⟩ :=
          cachedQueryResults_spec h.exact own revision
        exact h.frame rfl (fun _ => rfl) henabled hrevision hexact hmax hentries
          (reading_setSearch hsearches fun read hread => .inr ⟨_, hphase, hread⟩)
      · cases hnext
    · cases hnext
  | store search key hits taken =>
    simp only [DaemonState.step] at hnext
    split at hnext
    · next revision own hphase =>
      split at hnext
      · next hown =>
        obtain ⟨rfl, htaken⟩ := hown
        exact h.store hfew hphase htaken hnext
      · cases hnext
    · cases hnext
  | cacheContexts contexts =>
    obtain rfl := Option.some.inj hnext
    exact h.frame rfl (fun _ => rfl) rfl rfl h.exact rfl (fun _ h => h)
      fun search phase read hphase hread => .inr ⟨phase, hphase, hread⟩
  | clear call workspaceId indexDir =>
    simp only [DaemonState.step] at hnext
    split at hnext
    · obtain rfl := Option.some.inj hnext
      exact h.frame rfl (fun _ => rfl) rfl rfl h.exact rfl (fun _ h => h)
        fun search phase read hphase hread => .inr ⟨phase, hphase, hread⟩
    · cases hnext
  | remove call workspaceId =>
    simp only [DaemonState.step] at hnext
    split at hnext
    · exact h.remove hnext
    · cases hnext

/-! ## Every run -/

theorem run_append {enabled : Bool} {more : List (Event Signature Request Hit)}
    (hrun : DaemonState.run queryResultBytes enabled (events ++ more) = some next) :
    ∃ state, DaemonState.run queryResultBytes enabled events = some state ∧
      more.foldlM (DaemonState.step queryResultBytes) state = some next := by
  rw [DaemonState.run, List.foldlM_append] at hrun
  exact Option.bind_eq_some_iff.mp hrun

/-- What holds after every run in which the revision cannot come round. -/
theorem run_inv {enabled : Bool}
    (hrun : DaemonState.run queryResultBytes enabled events = some state)
    (hfew : FewRemovals events) : Inv events state := by
  induction events using List.reverseRecOn generalizing state with
  | nil =>
    obtain rfl := Option.some.inj hrun
    have hexact : (ByteCache.new maxQueryCacheEntries maxQueryCacheEntries_pos maxQueryCacheBytes :
        ByteCache (QueryCacheKey Signature Request) (List Hit)).Exact :=
      ByteCache.new_exact maxQueryCacheEntries_pos (by decide)
    exact ⟨hexact, rfl, fun _ h => absurd h List.not_mem_nil, fun _ _ _ h => by cases h⟩
  | append_singleton events event ih =>
    obtain ⟨before, hbefore, hstep⟩ := run_append hrun
    rw [List.foldlM_cons] at hstep
    obtain ⟨after, hafter, hnil⟩ := Option.bind_eq_some_iff.mp hstep
    obtain rfl := Option.some.inj hnil
    exact (ih hbefore hfew.of_append).step hfew hafter

/-- What a lookup has found. -/
theorem lookup_storedSince {enabled : Bool} {reader : Nat} {key : QueryCacheKey Signature Request}
    {hits : List Hit} {after : List (Event Signature Request Hit)}
    (hrun : DaemonState.run queryResultBytes enabled
      (events ++ .lookup reader key (some hits) :: after) = some state)
    (hfew : FewRemovals (events ++ .lookup reader key (some hits) :: after)) :
    StoredSince events key hits := by
  obtain ⟨before, hbefore, hlookup⟩ := run_append hrun
  rw [List.foldlM_cons] at hlookup
  obtain ⟨next, hnext, -⟩ := Option.bind_eq_some_iff.mp hlookup
  have hinv := run_inv hbefore hfew.of_append
  simp only [DaemonState.step] at hnext
  split at hnext
  · next revision own hphase =>
    split at hnext
    · next hfound =>
      obtain ⟨bytes, hentry⟩ :=
        (cachedQueryResults_spec hinv.exact key revision).2.2.2.2.2.2 hits hfound.2
      exact hinv.stored _ hentry
    · cases hnext
  · cases hnext

/-- In every run in which fewer than `2 ^ 64` removals come between a search's reading of the
    revision and its store, every lookup finds what was last stored under its key, by a search that
    has read the revision after each removal of one of the key's workspaces. What is stored can be
    found at once, and the cache keeps to its budget. -/
theorem lookups_after_removals {enabled : Bool}
    (hrun : DaemonState.run queryResultBytes enabled events = some state)
    (hfew : FewRemovals events) :
    (∀ before reader key hits after, events = before ++ .lookup reader key (some hits) :: after →
      StoredSince before key hits ∧
        ∀ earlier call workspaceId middle, before = earlier ++ .remove call workspaceId :: middle →
          key.workspaceIds.contains workspaceId = true →
            ∃ writer first rest,
              middle = first ++ .readRevision writer key.workspaceIds key.request :: rest ∧
                .store writer key hits true ∈ rest) ∧
    (∀ key hits revision,
      state.takesQueryResults queryResultBytes key hits revision = true →
        ∃ next, state.storeQueryResults queryResultBytes key hits revision = some next ∧
          (next.cachedQueryResults key revision).2 = some hits) ∧
    state.queryResults.results.bytes ≤ maxQueryCacheBytes := by
  have hinv := run_inv hrun hfew
  refine ⟨?_, fun key hits revision htakes => cached_of_store hinv.exact htakes, ?_⟩
  · rintro before reader key hits after rfl
    have hstored := lookup_storedSince hrun hfew
    refine ⟨hstored, ?_⟩
    rintro earlier call workspaceId middle rfl hkey
    exact hstored.after_removal hkey
  · rw [← hinv.maxBytes]
    exact hinv.exact.bytes_le

/-! ## Samples -/

private def sampleWorkspace : Str := ['w']

private def sampleKey : QueryCacheKey Unit Unit := ⟨[sampleWorkspace], [], ()⟩

/-- The steps of a search up to its lookup. -/
private def lookupSteps (search : Nat) (found : Option (List Unit)) : List (Event Unit Unit Unit) :=
  [.readRevision search [sampleWorkspace] (), .stamp search [], .lookup search sampleKey found]

/-- A call of `clear_workspace_contexts`. -/
private def clearSteps : List (Event Unit Unit Unit) :=
  [.clear 0 sampleWorkspace [], .remove 0 sampleWorkspace]

/-- The first search stores too late, the second one stores, and the third one finds that. -/
private def sampleEvents : List (Event Unit Unit Unit) :=
  lookupSteps 0 none ++ clearSteps ++ .store 0 sampleKey [()] false ::
    (lookupSteps 1 none ++ .store 1 sampleKey [(), ()] true ::
      [.readRevision 2 [sampleWorkspace] (), .stamp 2 []])

theorem lookups_after_removals_sample :
    StoredSince sampleEvents sampleKey [(), ()] := by
  have hrun : (DaemonState.run (fun _ _ => 0) true
      (sampleEvents ++ [.lookup 2 sampleKey (some [(), ()])])).isSome = true := by
    decide +kernel
  obtain ⟨state, hstate⟩ := Option.isSome_iff_exists.mp hrun
  have hfew : FewRemovals (sampleEvents ++ [.lookup 2 sampleKey (some [(), ()])]) :=
    FewRemovals.of_count (by decide)
  exact ((lookups_after_removals hstate hfew).1 sampleEvents 2 sampleKey [(), ()] [] rfl).1

/-- While a search waits, the cache is empty. -/
private def waiting (searches : Nat → Option (SearchPhase Unit Unit)) (revision : UInt64) :
    DaemonState Unit Unit Unit where
  queryResultCacheEnabled := true
  queryResults :=
    ⟨.new maxQueryCacheEntries maxQueryCacheEntries_pos maxQueryCacheBytes, revision⟩
  searchContexts := []
  searches := searches
  clears := fun _ => []

private theorem clearSteps_waiting (searches : Nat → Option (SearchPhase Unit Unit))
    (revision : UInt64) :
    clearSteps.foldlM (DaemonState.step fun _ _ => 0) (waiting searches revision) =
      some (waiting searches (revision + 1)) := by
  have hclears : (fun other : Nat => if other = 0 then ([] : List Str) else
      if other = 0 then [sampleWorkspace] else []) = fun _ => [] := by
    funext other
    by_cases h : other = 0 <;> simp [h]
  have hclear : DaemonState.step (fun _ _ => 0) (waiting searches revision)
      (.clear 0 sampleWorkspace []) =
        some ((waiting searches revision).setClear 0 [sampleWorkspace]) := rfl
  have hremove : DaemonState.step (fun _ _ => 0)
      ((waiting searches revision).setClear 0 [sampleWorkspace]) (.remove 0 sampleWorkspace) =
        some { waiting searches (revision + 1) with
          clears := fun other => if other = 0 then [] else
            if other = 0 then [sampleWorkspace] else [] } := rfl
  rw [clearSteps, List.foldlM_cons, hclear, Option.bind_eq_bind, Option.bind_some,
    List.foldlM_cons, hremove, hclears]
  rfl

/-- The removals only move the revision on. -/
private theorem rounds_waiting (searches : Nat → Option (SearchPhase Unit Unit))
    (revision : UInt64) (count : Nat) :
    (List.replicate count clearSteps).flatten.foldlM (DaemonState.step fun _ _ => 0)
        (waiting searches revision) =
      some (waiting searches (revision + UInt64.ofNat count)) := by
  induction count generalizing revision with
  | zero =>
    show some (waiting searches revision) = some (waiting searches (revision + 0))
    rw [UInt64.add_zero]
  | succ count ih =>
    rw [List.replicate_succ, List.flatten_cons, List.foldlM_append, clearSteps_waiting,
      Option.bind_eq_bind, Option.bind_some, ih, UInt64.ofNat_add, UInt64.add_assoc,
      UInt64.add_comm 1]
    rfl

/-- Where the first search is after its lookup. -/
private def lookedFirst (search : Nat) : Option (SearchPhase Unit Unit) :=
  if search = 0 then some (.looked 0 sampleKey) else none

/-- What comes between the last removal and the lookup. -/
private def staleSteps : List (Event Unit Unit Unit) :=
  [.store 0 sampleKey [()] true, .readRevision 1 [sampleWorkspace] (), .stamp 1 []]

private def staleLookup : Event Unit Unit Unit := .lookup 1 sampleKey (some [()])

/-- Where the revision comes round, a search stores results that another one finds. -/
private theorem exists_stale {count : Nat} (hwrap : UInt64.ofNat (count + 1) = 0) :
    ∃ earlier state, DaemonState.run (fun _ _ => 0) true
      (earlier ++ .remove 0 sampleWorkspace ::
        (staleSteps ++ [staleLookup])) = some state := by
  have hfirst : (lookupSteps 0 none).foldlM (DaemonState.step fun _ _ => 0)
      (DaemonState.default true) = some (waiting lookedFirst 0) := by
    have hsearches : lookedFirst = fun search => if search = 0 then some (.looked 0 sampleKey) else
        if search = 0 then some (.keyed 0 sampleKey) else
          if search = 0 then some (.started 0 [sampleWorkspace] ()) else none := by
      funext search
      by_cases h : search = 0 <;> simp [lookedFirst, h]
    rw [hsearches]
    rfl
  have hlast : ((staleSteps ++ [staleLookup]).foldlM
      (DaemonState.step fun _ _ => 0) (waiting lookedFirst 0)).isSome = true := by
    decide +kernel
  obtain ⟨state, hstate⟩ := Option.isSome_iff_exists.mp hlast
  refine ⟨lookupSteps 0 none ++ ((List.replicate count clearSteps).flatten ++
    [.clear 0 sampleWorkspace []]), state, ?_⟩
  have hevents : lookupSteps 0 none ++ ((List.replicate count clearSteps).flatten ++
      [.clear 0 sampleWorkspace []]) ++ .remove 0 sampleWorkspace ::
        (staleSteps ++ [staleLookup]) =
      lookupSteps 0 none ++ ((List.replicate (count + 1) clearSteps).flatten ++
        (staleSteps ++ [staleLookup])) := by
    rw [List.replicate_succ', List.flatten_concat]
    simp [clearSteps]
  rw [hevents, DaemonState.run, List.foldlM_append, hfirst, Option.bind_eq_bind, Option.bind_some,
    List.foldlM_append, rounds_waiting, hwrap]
  exact hstate

/-- With `2 ^ 64` removals while a search is at work, its results outlive them. -/
theorem stale_results_after_wrap :
    ¬ ∀ (events : List (Event Unit Unit Unit)) (state : DaemonState Unit Unit Unit),
      DaemonState.run (fun _ _ => 0) true events = some state →
      ∀ earlier call workspaceId middle reader key hits after,
        events = earlier ++ .remove call workspaceId ::
          (middle ++ .lookup reader key (some hits) :: after) →
        key.workspaceIds.contains workspaceId = true →
          ∃ writer first rest,
            middle = first ++ .readRevision writer key.workspaceIds key.request :: rest ∧
              .store writer key hits true ∈ rest := by
  intro hclaim
  have hwrap : UInt64.ofNat (2 ^ 64 - 1 + 1) = 0 := by decide
  obtain ⟨earlier, state, hrun⟩ := exists_stale hwrap
  obtain ⟨writer, first, rest, hmiddle, hstore⟩ := hclaim _ state hrun earlier 0 sampleWorkspace
    staleSteps 1 sampleKey [()] [] rfl (by decide)
  -- There is one reading after the removal, and no store after that.
  have hreads : ∀ before, staleSteps = before ++ .readRevision writer sampleKey.workspaceIds () ::
      rest → rest = [.stamp 1 []] := by
    intro before hbefore
    cases before with
    | nil => simp [staleSteps] at hbefore
    | cons first before =>
      cases before with
      | nil => exact ((List.cons.inj (List.cons.inj hbefore).2).2).symm
      | cons second before => cases before <;> simp [staleSteps] at hbefore
  rw [hreads first hmiddle] at hstore
  simp at hstore

end Ivygrep.Native.QueryResults
