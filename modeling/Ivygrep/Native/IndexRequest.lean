import Ivygrep.Native.IndexFlight

/-!
# Index requests

`run_index_request` of `daemon.rs` with the handlers of `Index` and `StartIndex`, for one
workspace: a request joins or leads, waits for the exclusive lease, and then either finds
the index current or walks the workspace. The watcher worker runs under the same lease.
A walk is kept with the start that was noted for it, its filter and its outcome.
-/

namespace Ivygrep.Native

/-- What the runs read of a workspace's metadata. -/
structure WorkspaceMetadata where
  lastIndexedAtUnix : Option Nat
  watchEnabled : Bool
  skipGitignore : Bool
  indexGeneration : UInt64
  deriving DecidableEq, Repr

/-- A full walk: the instant noted for it, the filter once it has been read, and whether
    the walk succeeded once it has ended. -/
structure IndexWalk where
  started : Nat
  skipGitignore : Option Bool
  outcome : Option Bool
  deriving DecidableEq, Repr

structure IndexingSummary where
  indexedFiles : Nat
  totalChunks : Nat
  deriving DecidableEq, Repr

/-- Where a request stands. `prepared` has the value of `already_current`; `finished`,
    `published` and `answered` have the response of its own run, `reused` its leader's. -/
inductive RequestStage where
  | arrived
  | following (follower : Nat)
  | joined
  | registering
  | registered
  | waiting (generationOnArrival : Option UInt64)
  | leased (generationOnArrival : Option UInt64)
  | prepared (alreadyCurrent : Bool)
  | noted
  | walking
  | finished (response : DaemonResponse)
  | published (response : DaemonResponse)
  | answered (response : DaemonResponse)
  | reused (response : DaemonResponse)
  | indexStarted
  deriving DecidableEq, Repr

/-- An `Index` request, or a `StartIndex` request if `detached`. `walksBefore` counts the
    walks noted before it arrived, and `walk` is the one that its response rests on. -/
structure IndexRequest where
  watch : Bool
  skipGitignore : Bool
  detached : Bool
  arrivedAt : Nat
  walksBefore : Nat
  lead : Option Nat
  walk : Option Nat
  stage : RequestStage
  deriving DecidableEq, Repr

/-- Who has the exclusive lease. A watcher run is `full` from the noted start on. -/
inductive LeaseHolder where
  | request (index : Nat)
  | watcher (full : Bool)
  deriving DecidableEq, Repr

structure IndexRequests where
  now : Nat
  walks : List IndexWalk
  fullIndexRunStart : Option Nat
  metadata : Option WorkspaceMetadata
  lease : Option LeaseHolder
  flights : InflightIndexes
  requests : List IndexRequest

namespace IndexRequests

variable (state : IndexRequests) (index : Nat) (request : IndexRequest)

def setRequest : IndexRequests :=
  { state with requests := state.requests.set index request }

/-- The request at `index` goes on to the next stage. -/
def setStage (stage : RequestStage) : IndexRequests :=
  state.setRequest index { request with stage := stage }

/-- A change to the walk that was noted last. -/
def modifyLastWalk (change : IndexWalk → IndexWalk) : IndexRequests :=
  { state with walks := state.walks.modify (state.walks.length - 1) change }

/-- `note_full_index_run_start`. -/
def noteFullIndexRunStart : IndexRequests :=
  { state with
    fullIndexRunStart := some state.now
    walks := state.walks ++ [⟨state.now, none, none⟩] }

/-- `full_index_run_started_after`. -/
def fullIndexRunStartedAfter (arrivedAt : Nat) : Bool :=
  state.fullIndexRunStart.any fun started => decide (arrivedAt < started)

def indexGeneration : Option UInt64 := state.metadata.map (·.indexGeneration)

/-- A request arrives at the handler of `Index` or `StartIndex`. -/
def arrive (watch skipGitignore detached : Bool) : IndexRequests :=
  { state with
    requests := state.requests ++ [{
      watch, skipGitignore, detached
      arrivedAt := state.now
      walksBefore := state.walks.length
      lead := none
      walk := none
      stage := .arrived }] }

/-- What the slot of `join_or_lead_index` makes of a request. Only a leader goes on with
    `StartIndex`. -/
def slot (workspaceId : Str) : IndexRequest :=
  match state.flights.registry[workspaceId]? with
  | none => { request with lead := some state.flights.leads.length, stage := .joined }
  | some existing =>
    if request.detached then { request with stage := .indexStarted }
    else if existing.watch == request.watch && existing.skipGitignore == request.skipGitignore then
      { request with stage := .following state.flights.followers.length }
    else { request with stage := .joined }

def joinOrLeadIndex (workspaceId : Str) : IndexRequests :=
  { state.setRequest index (state.slot request workspaceId) with
    flights := state.flights.joinOrLeadIndex workspaceId request.watch request.skipGitignore }

/-- The follower's choice: it reuses an error, and an `Ack` if a full walk has been noted
    since it arrived. -/
def follow (response : DaemonResponse) : IndexRequests :=
  match response with
  | .error _ => state.setStage index request (.reused response)
  | .ack _ =>
    if state.fullIndexRunStartedAfter request.arrivedAt then
      state.setStage index request (.reused response)
    else state.setStage index request .joined

end IndexRequests

/-- The metadata of a workspace that has none. -/
def IndexRequest.newMetadata (request : IndexRequest) : WorkspaceMetadata where
  lastIndexedAtUnix := none
  watchEnabled := request.watch
  skipGitignore := request.skipGitignore
  indexGeneration := 0

namespace IndexRequests

variable (state : IndexRequests) (index : Nat) (request : IndexRequest)

/-- The second part of `register_workspace_for_index`, after it has found no metadata. -/
def writeRegistration : IndexRequests :=
  { state.setStage index request .registered with metadata := some request.newMetadata }

/-- `run_index_request` reads the generation. `StartIndex` reads the clock before it. -/
def run : IndexRequests :=
  if request.detached then
    state.setRequest index
      { request with
        arrivedAt := state.now, walksBefore := state.walks.length
        stage := .waiting state.indexGeneration }
  else state.setStage index request (.waiting state.indexGeneration)

def acquireIndexLease (generationOnArrival : Option UInt64) : IndexRequests :=
  { state.setStage index request (.leased generationOnArrival) with
    lease := some (.request index) }

/-- The checkout was replaced while the request waited: it waits for the new one. -/
def resolveAgain : IndexRequests :=
  { state.setStage index request (.waiting state.indexGeneration) with lease := none }

/-- An early return of `run_index_request`, which does not publish. -/
def refuse (message : Str) : IndexRequests :=
  state.setStage index request (.answered (.error message))

/-- `already_current`. -/
def alreadyCurrent (generationOnArrival : Option UInt64) (replacement obsoleteOverlay : Bool) :
    Bool :=
  let metadata := state.metadata.getD request.newMetadata
  !replacement && !obsoleteOverlay && metadata.lastIndexedAtUnix.isSome &&
    metadata.skipGitignore == request.skipGitignore &&
    generationOnArrival.any (fun arrival => decide (arrival < metadata.indexGeneration)) &&
    state.fullIndexRunStartedAfter request.arrivedAt

/-- The blocking part up to `write_metadata`. -/
def prepare (generationOnArrival : Option UInt64) (replacement obsoleteOverlay : Bool) :
    IndexRequests :=
  { state.setStage index request
      (.prepared (state.alreadyCurrent request generationOnArrival replacement obsoleteOverlay)) with
    metadata := some { state.metadata.getD request.newMetadata with
      skipGitignore := request.skipGitignore
      watchEnabled := request.watch } }

/-- The response to a run that ended without an error. -/
def indexResponse (watch : Bool) (watcherError : Option Str) (summary : Option IndexingSummary) :
    DaemonResponse :=
  let watcherResult := if watch then watcherError else none
  match watcherResult, summary with
  | some message, _ => .error message
  | none, some summary =>
    .ack ("indexed ".toList ++ Nat.toDigits 10 summary.indexedFiles ++ " files (".toList ++
      Nat.toDigits 10 summary.totalChunks ++ " chunks)".toList)
  | none, none => .ack "index already current; skipped redundant rescan".toList

/-- The response to the result of the blocking part. -/
def blockingResponse (watch : Bool)
    (result : Except Str (Option IndexingSummary × Option Str)) : DaemonResponse :=
  match result with
  | .ok (summary, watcherError) => indexResponse watch watcherError summary
  | .error message => .error message

/-- The run ends, and its lease with it. -/
def release (response : DaemonResponse) : IndexRequests :=
  { state.setStage index request (.finished response) with lease := none }

/-- The request is found current, and skips the scan. -/
def skip (watcherError : Option Str) : IndexRequests :=
  state.release index { request with walk := some (state.walks.length - 1) }
    (blockingResponse request.watch (.ok (none, watcherError)))

def noteStart : IndexRequests :=
  state.noteFullIndexRunStart.setRequest index
    { request with walk := some state.walks.length, stage := .noted }

/-- `index_workspace` reads its filter from the metadata. -/
def readFilter : IndexRequests :=
  state.modifyLastWalk fun walk =>
    { walk with skipGitignore := some (state.metadata.any (·.skipGitignore)) }

/-- The last walk ends. -/
def endWalk (success : Bool) : IndexRequests :=
  state.modifyLastWalk fun walk => { walk with outcome := some success }

/-- `finalize_workspace_index_state` commits a new generation at the time `unix`. -/
def commit (unix : Nat) : IndexRequests :=
  let existing := state.metadata.getD ⟨none, false, false, 0⟩
  { state with
    metadata := some { existing with
      lastIndexedAtUnix := some unix
      indexGeneration := existing.indexGeneration + 1 } }

/-- A run is about to write to the index, or does so. -/
def Indexing : Prop :=
  (∃ full, state.lease = some (.watcher full)) ∨
    ∃ index request, state.lease = some (.request index) ∧
      state.requests[index]? = some request ∧ request.stage = .walking

end IndexRequests

/-! ## Steps -/

inductive IndexEvent where
  | tick
  | arrive (watch skipGitignore detached : Bool)
  | joinOrLeadIndex (index : Nat)
  | flight (event : FlightEvent)
  | follow (index : Nat)
  | register (index : Nat)
  | writeRegistration (index : Nat)
  | run (index : Nat)
  | acquireIndexLease (index : Nat)
  | resolveAgain (index : Nat)
  | refuse (index : Nat) (message : Str)
  | prepare (index : Nat) (replacement obsoleteOverlay : Bool)
  | skip (index : Nat) (watcherError : Option Str)
  | noteStart (index : Nat)
  | readFilter (index : Nat)
  | commit (unix : Nat)
  | finish (index : Nat) (summary : IndexingSummary) (watcherError : Option Str)
  | fail (index : Nat) (message : Str)
  | publish (index : Nat)
  | answer (index : Nat)
  | watcherAcquire
  | watcherNoteStart
  | watcherReadFilter
  | watcherFinish (success : Bool)
  | forgetRunStart
  deriving DecidableEq, Repr

/-- The events that only move the channels: a request joins and publishes by itself. -/
def FlightEvent.Internal (event : FlightEvent) : Prop :=
  match event with
  | .joinOrLeadIndex .. | .publishRemove .. => False
  | .publishSend _ | .dropRemove _ | .dropSend _ | .receive _ => True

/-- The steps of all requests for the workspace, of its watcher and of the clock. Which
    run fails, which checkout is replaced and which files a walk finds is left open, and
    with that the edits to the files. -/
inductive IndexStep (workspaceId : Str) : IndexRequests → IndexEvent → IndexRequests → Prop where
  | tick (state : IndexRequests) : IndexStep workspaceId state .tick { state with now := state.now + 1 }
  | arrive (state : IndexRequests) (watch skipGitignore detached : Bool) :
      IndexStep workspaceId state (.arrive watch skipGitignore detached)
        (state.arrive watch skipGitignore detached)
  | joinOrLeadIndex (state : IndexRequests) (index : Nat) (request : IndexRequest)
      (hrequest : state.requests[index]? = some request) (hstage : request.stage = .arrived) :
      IndexStep workspaceId state (.joinOrLeadIndex index)
        (state.joinOrLeadIndex index request workspaceId)
  | flight (state : IndexRequests) (event : FlightEvent) (flights : InflightIndexes)
      (hinternal : event.Internal) (hflight : FlightStep state.flights event flights) :
      IndexStep workspaceId state (.flight event) { state with flights := flights }
  | follow (state : IndexRequests) (index : Nat) (request : IndexRequest) (number : Nat)
      (follower : IndexFollower) (response : DaemonResponse)
      (hrequest : state.requests[index]? = some request)
      (hstage : request.stage = .following number)
      (hfollower : state.flights.followers[number]? = some follower)
      (hreceived : follower.received = some response) :
      IndexStep workspaceId state (.follow index) (state.follow index request response)
  | register (state : IndexRequests) (index : Nat) (request : IndexRequest)
      (hrequest : state.requests[index]? = some request) (hstage : request.stage = .joined)
      (hmetadata : state.metadata = none) :
      IndexStep workspaceId state (.register index) (state.setStage index request .registering)
  | writeRegistration (state : IndexRequests) (index : Nat) (request : IndexRequest)
      (hrequest : state.requests[index]? = some request) (hstage : request.stage = .registering) :
      IndexStep workspaceId state (.writeRegistration index) (state.writeRegistration index request)
  | run (state : IndexRequests) (index : Nat) (request : IndexRequest)
      (hrequest : state.requests[index]? = some request)
      (hstage : request.stage = .joined ∨ request.stage = .registering ∨
        request.stage = .registered) :
      IndexStep workspaceId state (.run index) (state.run index request)
  | acquireIndexLease (state : IndexRequests) (index : Nat) (request : IndexRequest)
      (generationOnArrival : Option UInt64) (hrequest : state.requests[index]? = some request)
      (hstage : request.stage = .waiting generationOnArrival) (hfree : state.lease = none) :
      IndexStep workspaceId state (.acquireIndexLease index)
        (state.acquireIndexLease index request generationOnArrival)
  | resolveAgain (state : IndexRequests) (index : Nat) (request : IndexRequest)
      (generationOnArrival : Option UInt64) (hrequest : state.requests[index]? = some request)
      (hstage : request.stage = .leased generationOnArrival) :
      IndexStep workspaceId state (.resolveAgain index) (state.resolveAgain index request)
  | refuseLease (state : IndexRequests) (index : Nat) (request : IndexRequest) (message : Str)
      (generationOnArrival : Option UInt64) (hrequest : state.requests[index]? = some request)
      (hstage : request.stage = .waiting generationOnArrival) :
      IndexStep workspaceId state (.refuse index message) (state.refuse index request message)
  | refuseCheckout (state : IndexRequests) (index : Nat) (request : IndexRequest) (message : Str)
      (generationOnArrival : Option UInt64) (hrequest : state.requests[index]? = some request)
      (hstage : request.stage = .leased generationOnArrival) :
      IndexStep workspaceId state (.refuse index message)
        { state.refuse index request message with lease := none }
  | prepare (state : IndexRequests) (index : Nat) (request : IndexRequest)
      (generationOnArrival : Option UInt64) (replacement obsoleteOverlay : Bool)
      (hrequest : state.requests[index]? = some request)
      (hstage : request.stage = .leased generationOnArrival) :
      IndexStep workspaceId state (.prepare index replacement obsoleteOverlay)
        (state.prepare index request generationOnArrival replacement obsoleteOverlay)
  | skip (state : IndexRequests) (index : Nat) (request : IndexRequest)
      (watcherError : Option Str) (hrequest : state.requests[index]? = some request)
      (hstage : request.stage = .prepared true) :
      IndexStep workspaceId state (.skip index watcherError) (state.skip index request watcherError)
  | noteStart (state : IndexRequests) (index : Nat) (request : IndexRequest)
      (alreadyCurrent : Bool) (hrequest : state.requests[index]? = some request)
      (hstage : request.stage = .prepared alreadyCurrent) :
      IndexStep workspaceId state (.noteStart index) (state.noteStart index request)
  | readFilter (state : IndexRequests) (index : Nat) (request : IndexRequest)
      (hrequest : state.requests[index]? = some request) (hstage : request.stage = .noted) :
      IndexStep workspaceId state (.readFilter index)
        (state.readFilter.setStage index request .walking)
  | commit (state : IndexRequests) (unix : Nat) (hindexing : state.Indexing) :
      IndexStep workspaceId state (.commit unix) (state.commit unix)
  | finish (state : IndexRequests) (index : Nat) (request : IndexRequest)
      (summary : IndexingSummary) (watcherError : Option Str)
      (hrequest : state.requests[index]? = some request) (hstage : request.stage = .walking) :
      IndexStep workspaceId state (.finish index summary watcherError)
        ((state.endWalk true).release index request
          (IndexRequests.blockingResponse request.watch (.ok (some summary, watcherError))))
  | failBefore (state : IndexRequests) (index : Nat) (request : IndexRequest) (message : Str)
      (hrequest : state.requests[index]? = some request)
      (hstage : (∃ generationOnArrival, request.stage = .leased generationOnArrival) ∨
        ∃ alreadyCurrent, request.stage = .prepared alreadyCurrent) :
      IndexStep workspaceId state (.fail index message)
        (state.release index request (IndexRequests.blockingResponse request.watch (.error message)))
  | fail (state : IndexRequests) (index : Nat) (request : IndexRequest) (message : Str)
      (hrequest : state.requests[index]? = some request)
      (hstage : request.stage = .noted ∨ request.stage = .walking) :
      IndexStep workspaceId state (.fail index message)
        ((state.endWalk false).release index request
          (IndexRequests.blockingResponse request.watch (.error message)))
  | publish (state : IndexRequests) (index : Nat) (request : IndexRequest) (number : Nat)
      (lead : InflightIndexLead) (response : DaemonResponse)
      (hrequest : state.requests[index]? = some request)
      (hstage : request.stage = .finished response) (hlead : request.lead = some number)
      (hregistered : state.flights.leads[number]? = some lead)
      (hlive : lead.stage = .registered) :
      IndexStep workspaceId state (.publish index)
        { state.setStage index request (.published response) with
          flights := state.flights.publishRemove number lead response }
  | answerLead (state : IndexRequests) (index : Nat) (request : IndexRequest) (number : Nat)
      (lead : InflightIndexLead) (response : DaemonResponse)
      (hrequest : state.requests[index]? = some request)
      (hstage : request.stage = .published response) (hlead : request.lead = some number)
      (hpublished : state.flights.leads[number]? = some lead)
      (hsent : lead.stage ≠ .publishing) :
      IndexStep workspaceId state (.answer index) (state.setStage index request (.answered response))
  | answer (state : IndexRequests) (index : Nat) (request : IndexRequest)
      (response : DaemonResponse) (hrequest : state.requests[index]? = some request)
      (hstage : request.stage = .finished response) (hlead : request.lead = none) :
      IndexStep workspaceId state (.answer index) (state.setStage index request (.answered response))
  | watcherAcquire (state : IndexRequests) (hfree : state.lease = none) :
      IndexStep workspaceId state .watcherAcquire { state with lease := some (.watcher false) }
  | watcherNoteStart (state : IndexRequests) (hlease : state.lease = some (.watcher false)) :
      IndexStep workspaceId state .watcherNoteStart
        { state.noteFullIndexRunStart with lease := some (.watcher true) }
  | watcherReadFilter (state : IndexRequests) (hlease : state.lease = some (.watcher true)) :
      IndexStep workspaceId state .watcherReadFilter state.readFilter
  | watcherFinish (state : IndexRequests) (success : Bool)
      (hlease : state.lease = some (.watcher true)) :
      IndexStep workspaceId state (.watcherFinish success)
        { state.endWalk success with lease := none }
  | watcherRelease (state : IndexRequests) (success : Bool)
      (hlease : state.lease = some (.watcher false)) :
      IndexStep workspaceId state (.watcherFinish success) { state with lease := none }
  | forgetRunStart (state : IndexRequests) :
      IndexStep workspaceId state .forgetRunStart { state with fullIndexRunStart := none }

end Ivygrep.Native
