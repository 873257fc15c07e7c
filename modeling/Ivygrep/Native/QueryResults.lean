import Ivygrep.Native.ByteCache

/-!
# The query result cache of the daemon

`QueryResultCache` of `daemon.rs` with its revision, the searches that look results up and store
them, and `clear_workspace_contexts`. Each step takes the lock of the cache at most once, and the
steps of searches and of clears come in any order. What an index run does to a store is not seen
here: the stamps of the files may be anything.
-/

namespace Ivygrep.Native

open ForStd

namespace QueryResults

def maxQueryCacheEntries : Nat := 128

def maxQueryCacheBytes : Nat := 64 * 1024 * 1024

def maxCacheableHits : Nat := 2000

/-- `QueryCacheKey`: which workspaces were asked, what their files looked like, and what they were
    asked for. -/
structure QueryCacheKey (Signature Request : Type) where
  workspaceIds : List Str
  signatures : List Signature
  request : Request
  deriving DecidableEq

/-- `CachedSearchContext` with the workspace of its key. -/
structure CachedSearchContext where
  workspaceId : Str
  baseIndexDir : Option Str

variable {Signature Request Hit : Type} [DecidableEq Signature] [DecidableEq Request]

structure QueryResultCache (Signature Request Hit : Type) [DecidableEq Signature]
    [DecidableEq Request] where
  results : ByteCache (QueryCacheKey Signature Request) (List Hit)
  revision : UInt64

theorem maxQueryCacheEntries_pos : 0 < maxQueryCacheEntries := by decide

namespace QueryResultCache

variable (cache : QueryResultCache Signature Request Hit)

/-- `QueryResultCache::default`. -/
def default : QueryResultCache Signature Request Hit where
  results := .new maxQueryCacheEntries maxQueryCacheEntries_pos maxQueryCacheBytes
  revision := 0

def get (key : QueryCacheKey Signature Request) :
    QueryResultCache Signature Request Hit × Option (List Hit) :=
  ({ cache with results := (cache.results.get key).1 }, (cache.results.get key).2)

def insert (queryResultBytes : QueryCacheKey Signature Request → List Hit → Nat)
    (key : QueryCacheKey Signature Request) (hits : List Hit) :
    Option (QueryResultCache Signature Request Hit) :=
  (cache.results.insert key hits (queryResultBytes key hits)).map fun results =>
    { cache with results := results }

/-- `remove_workspace`: the sum wraps around. -/
def removeWorkspace (workspaceId : Str) : Option (QueryResultCache Signature Request Hit) :=
  let keys := (cache.results.entries.entries.map Prod.fst).filter fun key =>
    key.workspaceIds.contains workspaceId
  (keys.foldlM ByteCache.remove cache.results).map fun results =>
    { results := results, revision := cache.revision + 1 }

end QueryResultCache

/-- Where a search is: it has read the revision, then it has its key, then it has looked the key up
    and can still store results. -/
inductive SearchPhase (Signature Request : Type) where
  | started (revision : UInt64) (workspaceIds : List Str) (request : Request)
  | keyed (revision : UInt64) (key : QueryCacheKey Signature Request)
  | looked (revision : UInt64) (key : QueryCacheKey Signature Request)
  | finished

/-- What `DaemonState` has of this. A clear that is under way has workspaces left. -/
structure DaemonState (Signature Request Hit : Type) [DecidableEq Signature]
    [DecidableEq Request] where
  queryResultCacheEnabled : Bool
  queryResults : QueryResultCache Signature Request Hit
  searchContexts : List CachedSearchContext
  searches : Nat → Option (SearchPhase Signature Request)
  clears : Nat → List Str

inductive Event (Signature Request Hit : Type) where
  /-- A search of these workspaces reads the revision. -/
  | readRevision (search : Nat) (workspaceIds : List Str) (request : Request)
  /-- It has the signatures of its workspaces. -/
  | stamp (search : Nat) (signatures : List Signature)
  | lookup (search : Nat) (key : QueryCacheKey Signature Request) (found : Option (List Hit))
  /-- It has searched, and its results are taken into the cache or they are not. -/
  | store (search : Nat) (key : QueryCacheKey Signature Request) (hits : List Hit) (taken : Bool)
  /-- Other tasks cache contexts and drop them. -/
  | cacheContexts (contexts : List CachedSearchContext)
  /-- `clear_workspace_contexts` finds out which workspaces it affects. -/
  | clear (call : Nat) (workspaceId indexDir : Str)
  /-- It removes one of them, in any order: they are a set. -/
  | remove (call : Nat) (workspaceId : Str)

namespace DaemonState

variable (state : DaemonState Signature Request Hit)

def default (queryResultCacheEnabled : Bool) : DaemonState Signature Request Hit where
  queryResultCacheEnabled := queryResultCacheEnabled
  queryResults := .default
  searchContexts := []
  searches := fun _ => none
  clears := fun _ => []

def setSearch (search : Nat) (phase : SearchPhase Signature Request) :
    DaemonState Signature Request Hit :=
  { state with
    searches := fun other => if other = search then some phase else state.searches other }

def setClear (call : Nat) (left : List Str) : DaemonState Signature Request Hit :=
  { state with clears := fun other => if other = call then left else state.clears other }

/-- `query_cache_revision`. -/
def queryCacheRevision : UInt64 :=
  if state.queryResultCacheEnabled then state.queryResults.revision else 0

/-- `cached_query_results`. -/
def cachedQueryResults (key : QueryCacheKey Signature Request) (revision : UInt64) :
    DaemonState Signature Request Hit × Option (List Hit) :=
  if !state.queryResultCacheEnabled then (state, none)
  else if state.queryResults.revision ≠ revision then (state, none)
  else
    ({ state with queryResults := (state.queryResults.get key).1 }, (state.queryResults.get key).2)

variable (queryResultBytes : QueryCacheKey Signature Request → List Hit → Nat)

/-- Whether `store_query_results` goes on to the insertion. -/
def takesQueryResults (key : QueryCacheKey Signature Request) (hits : List Hit)
    (revision : UInt64) : Bool :=
  state.queryResultCacheEnabled && state.queryResults.revision == revision &&
    hits.length ≤ maxCacheableHits && state.queryResults.results.fits (queryResultBytes key hits)

/-- `store_query_results`. -/
def storeQueryResults (key : QueryCacheKey Signature Request) (hits : List Hit)
    (revision : UInt64) : Option (DaemonState Signature Request Hit) :=
  if state.takesQueryResults queryResultBytes key hits revision then
    (state.queryResults.insert queryResultBytes key hits).map fun queryResults =>
      { state with queryResults := queryResults }
  else some state

/-- `clear_workspace_contexts` up to the removals from the cache. -/
def clearSearchContexts (call : Nat) (workspaceId indexDir : Str) :
    DaemonState Signature Request Hit :=
  let cleared := fun context : CachedSearchContext =>
    context.workspaceId = workspaceId || context.baseIndexDir = some indexDir
  let affected := workspaceId ::
    (state.searchContexts.filter cleared).map CachedSearchContext.workspaceId
  let kept := state.searchContexts.filter fun context => !cleared context
  { state with searchContexts := kept }.setClear call affected.dedup

variable [DecidableEq Hit]

/-- One step, or `none` where it is not the turn of that step. -/
def step (state : DaemonState Signature Request Hit) :
    Event Signature Request Hit → Option (DaemonState Signature Request Hit)
  | .readRevision search workspaceIds request =>
    match state.searches search with
    | none => some (state.setSearch search
        (.started state.queryCacheRevision workspaceIds request))
    | some _ => none
  | .stamp search signatures =>
    match state.searches search with
    | some (.started revision workspaceIds request) =>
      some (state.setSearch search (.keyed revision ⟨workspaceIds, signatures, request⟩))
    | _ => none
  | .lookup search key found =>
    match state.searches search with
    | some (.keyed revision own) =>
      if own = key ∧ (state.cachedQueryResults key revision).2 = found then
        some ((state.cachedQueryResults key revision).1.setSearch search (.looked revision key))
      else none
    | _ => none
  | .store search key hits taken =>
    match state.searches search with
    | some (.looked revision own) =>
      if own = key ∧ state.takesQueryResults queryResultBytes key hits revision = taken then
        (state.storeQueryResults queryResultBytes key hits revision).map
          (·.setSearch search .finished)
      else none
    | _ => none
  | .cacheContexts contexts => some { state with searchContexts := contexts }
  | .clear call workspaceId indexDir =>
    if (state.clears call).isEmpty then some (state.clearSearchContexts call workspaceId indexDir)
    else none
  | .remove call workspaceId =>
    if (state.clears call).contains workspaceId then
      (state.queryResults.removeWorkspace workspaceId).map fun queryResults =>
        { state with queryResults := queryResults }.setClear call
          ((state.clears call).erase workspaceId)
    else none

/-- A run from the start of the daemon. -/
def run (queryResultCacheEnabled : Bool) (events : List (Event Signature Request Hit)) :
    Option (DaemonState Signature Request Hit) :=
  events.foldlM (step queryResultBytes) (default queryResultCacheEnabled)

end DaemonState

end QueryResults

end Ivygrep.Native
