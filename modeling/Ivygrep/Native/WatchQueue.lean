import Ivygrep.Native.Str

/-!
# The watch queue

`WatchControl` of `daemon.rs` with `spawn_watch_worker`, for one registered watcher. The
callbacks mark work in a queue and notify the worker, which claims it and runs an index
update; an explicit `Index` run can satisfy the scan that the watcher starts with. Each
access to the lock or to a flag is a step of its own.
-/

namespace Ivygrep.Native

/-- What has changed since the queue was last taken. -/
inductive WatchChange (Path : Type) where
  | none
  | paths (paths : Finset Path)
  | fullReconciliation
  deriving DecidableEq

structure PendingWatchWork (Path : Type) where
  change : WatchChange Path
  backendError : Option Str
  deriving DecidableEq

def PendingWatchWork.default {Path : Type} : PendingWatchWork Path := ⟨.none, none⟩

inductive WatchReadiness where
  | reconciling
  | ready
  | failed (message : Str)
  | stopped
  deriving DecidableEq, Repr

/-- A call that marks work. `mark_paths_dirty` returns at once for the empty set. -/
inductive WatchCall (Path : Type) where
  | markPathsDirty (paths : Finset Path) (hpaths : paths.Nonempty)
  | markFullReconciliation (backendError : Option Str)
  | requeueFailedIndex (error : Str)

/-- What a call asks for. -/
def WatchCall.change {Path : Type} (call : WatchCall Path) : WatchChange Path :=
  match call with
  | .markPathsDirty paths _ => .paths paths
  | .markFullReconciliation _ | .requeueFailedIndex _ => .fullReconciliation

/-- The queue and the flags of a watcher. `notify` says whether a permit is stored. -/
structure WatchControl (Path : Type) where
  notify : Bool
  dirty : Bool
  indexing : Bool
  retrying : Bool
  active : Bool
  initialScanRequired : Bool
  initialReconciliationPending : Bool
  readiness : WatchReadiness
  pendingEvents : UInt64
  coalescedEvents : UInt64
  pendingWork : PendingWatchWork Path

namespace WatchControl

variable {Path : Type} (control : WatchControl Path)

/-- `WatchControl::new`, with the permit that `register_resolved_watcher` stores. -/
def new : WatchControl Path where
  notify := true
  dirty := false
  indexing := false
  retrying := false
  active := true
  initialScanRequired := true
  initialReconciliationPending := true
  readiness := .reconciling
  pendingEvents := 0
  coalescedEvents := 0
  pendingWork := .default

/-- The part of `mark_paths_dirty` under the lock, for a set that is not empty. -/
def markPathsDirty [DecidableEq Path] (paths : Finset Path) : WatchControl Path :=
  { control with
    pendingWork := { control.pendingWork with
      change :=
        match control.pendingWork.change with
        | .none => .paths paths
        | .paths existing => .paths (existing ∪ paths)
        | .fullReconciliation => .fullReconciliation }
    dirty := true
    pendingEvents := control.pendingEvents + 1 }

/-- The part of `mark_full_reconciliation` under the lock. -/
def markFullReconciliation (backendError : Option Str) : WatchControl Path :=
  { control with
    pendingWork := ⟨.fullReconciliation, backendError.or control.pendingWork.backendError⟩
    dirty := true
    pendingEvents := control.pendingEvents + 1 }

def notifyOne : WatchControl Path := { control with notify := true }

/-- `take_pending_work`, when there is work. -/
def takePendingWork : WatchControl Path :=
  { control with indexing := true, pendingWork := .default, dirty := false }

/-- `requeue_failed_index`, up to the notification. -/
def requeueFailedIndex (error : Str) : WatchControl Path :=
  ({ control with retrying := true } : WatchControl Path).markFullReconciliation (some error)

/-- The part of a marking call that comes before its notification. -/
def mark [DecidableEq Path] (call : WatchCall Path) : WatchControl Path :=
  match call with
  | .markPathsDirty paths _ => control.markPathsDirty paths
  | .markFullReconciliation backendError => control.markFullReconciliation backendError
  | .requeueFailedIndex error => control.requeueFailedIndex error

/-- The phase of `snapshot_phase`. -/
def snapshotPhase : Str :=
  if control.retrying then "error".toList
  else if control.indexing then "indexing".toList
  else if control.dirty then "dirty".toList
  else "idle".toList

/-- What the worker does to the counters when it has claimed work. -/
def countClaim : WatchControl Path :=
  { control with
    retrying := false
    pendingEvents := 0
    coalescedEvents := control.coalescedEvents +
      if control.pendingEvents = 0 then 0 else control.pendingEvents - 1 }

/-- `send_if_modified`: a stopped watcher stays stopped. -/
def sendReadiness (readiness : WatchReadiness) : WatchControl Path :=
  match control.readiness with
  | .stopped => control
  | _ => { control with readiness := readiness }

/-- The part of `publish_initial_watch_readiness_if_caught_up` under the lock. -/
def publishReadiness [DecidableEq Path] : WatchControl Path :=
  if !control.active || control.initialScanRequired || control.pendingWork.change ≠ .none ||
      control.indexing || !control.initialReconciliationPending then control
  else ({ control with initialReconciliationPending := false } : WatchControl Path).sendReadiness
    .ready

/-- `stop_watcher`. -/
def stop : WatchControl Path := { control with active := false, readiness := .stopped }

end WatchControl

/-- Where `complete_initial_watch_reconciliation` stands. Its last two parts are
    `publish_initial_watch_readiness_if_caught_up`. -/
inductive CompletionStage where
  | checking
  | storing
  | looking
  | publishing
  | done
  deriving DecidableEq, Repr

/-- The next step of `complete_initial_watch_reconciliation`. -/
def WatchControl.complete {Path : Type} [DecidableEq Path] (control : WatchControl Path)
    (stage : CompletionStage) : WatchControl Path × CompletionStage :=
  match stage with
  | .checking =>
    if !control.active || !control.initialReconciliationPending then (control, .done)
    else (control, .storing)
  | .storing => ({ control with initialScanRequired := false }, .looking)
  | .looking =>
    if !control.initialReconciliationPending then (control, .done) else (control, .publishing)
  | .publishing => (control.publishReadiness, .done)
  | .done => (control, .done)

/-- An index run since the watcher was registered: what it covers, whether it belongs to an
    explicit request, the number of marks before it started, and its outcome. -/
structure WatchRun (Path : Type) where
  change : WatchChange Path
  explicit : Bool
  marksBefore : Nat
  outcome : Option Bool
  deriving DecidableEq

/-- Work that the worker has claimed, with the number of marks before that. -/
structure WatchClaim (Path : Type) where
  work : PendingWatchWork Path
  marksBefore : Nat
  deriving DecidableEq

/-- Where the worker stands, from the await of a notification to the next. -/
inductive WatchWorker (Path : Type) where
  | parked
  | awake
  | settled
  | entering
  | looping
  | taking
  | unclaimed
  | claimed (claim : WatchClaim Path)
  | admitted (claim : WatchClaim Path)
  | deciding (claim : WatchClaim Path)
  | running (claim : WatchClaim Path) (run : Nat)
  | succeeded
  | reporting
  | completing (stage : CompletionStage)
  | failing (claim : WatchClaim Path) (error : Str)
  | requeueing (claim : WatchClaim Path) (error : Str)
  | requeued
  | settling
  | exiting
  | publishing (stage : CompletionStage)
  | leaving
  | stopped
  deriving DecidableEq

/-- An explicit `Index` run that has found the watcher registered. -/
inductive IndexScan where
  | scanning (run : Nat)
  | completing (stage : CompletionStage)
  deriving DecidableEq, Repr

/-- A watcher with its worker, the explicit runs, the calls that have marked work and not
    yet notified, and the marks and runs since it was registered. -/
structure WatchQueue (Path : Type) where
  control : WatchControl Path
  registered : Bool
  worker : WatchWorker Path
  scans : List IndexScan
  notifying : Nat
  marks : List (WatchChange Path)
  runs : List (WatchRun Path)

namespace WatchQueue

variable {Path : Type} (queue : WatchQueue Path)

def new : WatchQueue Path := ⟨.new, true, .parked, [], 0, [], []⟩

/-- The worker goes on, and nothing else changes. -/
def goTo (worker : WatchWorker Path) : WatchQueue Path := { queue with worker := worker }

/-- A call marks work. It notifies the worker in a later step. -/
def mark [DecidableEq Path] (call : WatchCall Path) : WatchQueue Path :=
  { queue with control := queue.control.mark call, marks := queue.marks ++ [call.change] }

/-- What a run of claimed work covers: every path, if there are no changed paths or the
    initial scan is still required. -/
def runChange (claim : WatchClaim Path) : WatchChange Path :=
  if queue.control.initialScanRequired then .fullReconciliation
  else match claim.work.change with
    | .paths paths => .paths paths
    | .none | .fullReconciliation => .fullReconciliation

def startRun (change : WatchChange Path) (explicit : Bool) : WatchQueue Path :=
  { queue with runs := queue.runs ++ [⟨change, explicit, queue.marks.length, none⟩] }

def finishRun (run : Nat) (success : Bool) : WatchQueue Path :=
  { queue with runs := queue.runs.modify run fun entry => { entry with outcome := some success } }

end WatchQueue

/-! ## Steps -/

/-- The steps of the worker that only read. -/
inductive WatchMove {Path : Type} (queue : WatchQueue Path) :
    WatchWorker Path → WatchWorker Path → Prop where
  | settle : WatchMove queue .awake (if queue.control.active then .settled else .stopped)
  | rouse : WatchMove queue .settled (if queue.control.active then .entering else .stopped)
  | loop : WatchMove queue .looping (if queue.control.active then .taking else .exiting)
  | takeNone (hnone : queue.control.pendingWork.change = .none) :
      WatchMove queue .taking .unclaimed
  | claimScan : WatchMove queue .unclaimed (if queue.control.initialScanRequired then
      .claimed ⟨.default, queue.marks.length⟩ else .exiting)
  | refuse (claim : WatchClaim Path) (error : Str) :
      WatchMove queue (.admitted claim) (.failing claim error)
  | skip (claim : WatchClaim Path) (hskip : queue.control.active = false ∨
        claim.work.change = .none ∧ queue.control.initialScanRequired = false) :
      WatchMove queue (.admitted claim) .succeeded
  | decide (claim : WatchClaim Path) (hactive : queue.control.active = true)
      (hwork : claim.work.change = .none → queue.control.initialScanRequired = true) :
      WatchMove queue (.admitted claim) (.deciding claim)
  | report : WatchMove queue .succeeded (.completing .checking)
  | completed : WatchMove queue (.completing .done) .settling
  | loopAgain : WatchMove queue .settling .looping
  | published : WatchMove queue (.publishing .done) .leaving
  | leave : WatchMove queue .leaving (if queue.control.active then .parked else .stopped)

/-- The calls that the worker makes: after a run in which the external Git exclude file has
    changed, and after a failed run. -/
inductive WatchWorker.Calls {Path : Type} :
    WatchWorker Path → WatchCall Path → WatchWorker Path → Prop where
  | markExternal : Calls .succeeded (.markFullReconciliation none) .reporting
  | requeue (claim : WatchClaim Path) (error : Str) :
      Calls (.requeueing claim error) (.requeueFailedIndex error) .requeued

/-- The notifications of these calls. -/
inductive WatchWorker.Notifies {Path : Type} : WatchWorker Path → WatchWorker Path → Prop where
  | external : Notifies .reporting (.completing .checking)
  | requeued : Notifies .requeued .settling

/-- The stages in which the worker is in `complete_initial_watch_reconciliation`, and, after
    its loop, in the second part of it. -/
inductive WatchWorker.Completes {Path : Type} :
    (CompletionStage → WatchWorker Path) → Prop where
  | completing : Completes .completing
  | publishing : Completes .publishing

/-- The steps of the callbacks, of explicit runs, of the worker, and of who stops the
    watcher. When time passes, and which run fails, is left open. -/
inductive WatchStep {Path : Type} [DecidableEq Path] : WatchQueue Path → WatchQueue Path → Prop where
  | call (queue : WatchQueue Path) (call : WatchCall Path) :
      WatchStep queue { queue.mark call with notifying := queue.notifying + 1 }
  | notifyOne (queue : WatchQueue Path) (hnotifying : 0 < queue.notifying) :
      WatchStep queue
        { queue with control := queue.control.notifyOne, notifying := queue.notifying - 1 }
  | startScan (queue : WatchQueue Path) (hregistered : queue.registered = true) :
      WatchStep queue
        { queue.startRun .fullReconciliation true with
          scans := queue.scans ++ [.scanning queue.runs.length] }
  | finishScan (queue : WatchQueue Path) (index run : Nat) (success : Bool)
      (hscan : queue.scans[index]? = some (.scanning run)) :
      WatchStep queue
        { queue.finishRun run success with
          scans := queue.scans.set index (.completing (if success then .checking else .done)) }
  | completeScan (queue : WatchQueue Path) (index : Nat) (stage : CompletionStage)
      (hscan : queue.scans[index]? = some (.completing stage)) :
      WatchStep queue
        { queue with
          control := (queue.control.complete stage).1
          scans := queue.scans.set index (.completing (queue.control.complete stage).2) }
  | wake (queue : WatchQueue Path) (hworker : queue.worker = .parked)
      (hnotify : queue.control.notify = true) :
      WatchStep queue { queue.goTo .awake with control := { queue.control with notify := false } }
  | move (queue : WatchQueue Path) (worker : WatchWorker Path)
      (hmove : WatchMove queue queue.worker worker) : WatchStep queue (queue.goTo worker)
  | enter (queue : WatchQueue Path) (hworker : queue.worker = .entering) :
      WatchStep queue
        { queue.goTo (if queue.control.indexing then .parked else .looping) with
          control := { queue.control with indexing := true } }
  | take (queue : WatchQueue Path) (hworker : queue.worker = .taking)
      (hwork : queue.control.pendingWork.change ≠ .none) :
      WatchStep queue
        { queue.goTo (.claimed ⟨queue.control.pendingWork, queue.marks.length⟩) with
          control := queue.control.takePendingWork }
  | countClaim (queue : WatchQueue Path) (claim : WatchClaim Path)
      (hworker : queue.worker = .claimed claim) :
      WatchStep queue { queue.goTo (.admitted claim) with control := queue.control.countClaim }
  | startRun (queue : WatchQueue Path) (claim : WatchClaim Path)
      (hworker : queue.worker = .deciding claim) :
      WatchStep queue
        ((queue.startRun (queue.runChange claim) false).goTo (.running claim queue.runs.length))
  | succeed (queue : WatchQueue Path) (claim : WatchClaim Path) (run : Nat)
      (hworker : queue.worker = .running claim run) :
      WatchStep queue ((queue.finishRun run true).goTo .succeeded)
  | fail (queue : WatchQueue Path) (claim : WatchClaim Path) (run : Nat) (error : Str)
      (hworker : queue.worker = .running claim run) :
      WatchStep queue ((queue.finishRun run false).goTo (.failing claim error))
  | workerCall (queue : WatchQueue Path) (call : WatchCall Path) (worker : WatchWorker Path)
      (hcalls : queue.worker.Calls call worker) : WatchStep queue ((queue.mark call).goTo worker)
  | workerNotify (queue : WatchQueue Path) (worker : WatchWorker Path)
      (hnotifies : queue.worker.Notifies worker) :
      WatchStep queue { queue.goTo worker with control := queue.control.notifyOne }
  | complete (queue : WatchQueue Path) (worker : CompletionStage → WatchWorker Path)
      (stage : CompletionStage) (hworker : queue.worker = worker stage)
      (hcompletes : WatchWorker.Completes worker) :
      WatchStep queue
        { queue.goTo (worker (queue.control.complete stage).2) with
          control := (queue.control.complete stage).1 }
  | release (queue : WatchQueue Path) (claim : WatchClaim Path) (error : Str)
      (hworker : queue.worker = .failing claim error) :
      WatchStep queue
        { queue.goTo .exiting with
          registered := false
          control := if queue.registered then queue.control.stop else queue.control }
  | sendFailed (queue : WatchQueue Path) (claim : WatchClaim Path) (error : Str)
      (hworker : queue.worker = .failing claim error) :
      WatchStep queue
        { queue.goTo (.requeueing claim error) with
          control := if queue.control.initialReconciliationPending then
            queue.control.sendReadiness (.failed error) else queue.control }
  | exit (queue : WatchQueue Path) (hworker : queue.worker = .exiting) :
      WatchStep queue
        { queue.goTo (.publishing .looking) with
          control := { queue.control with indexing := false } }
  | unregister (queue : WatchQueue Path) : WatchStep queue { queue with registered := false }
  | stop (queue : WatchQueue Path) (hregistered : queue.registered = false) :
      WatchStep queue
        { queue.goTo (if queue.worker = .parked then .awake else queue.worker) with
          control := queue.control.stop }

end Ivygrep.Native
