import Ivygrep.Native.Str

/-!
# The queue of background enhancement

`EnhancementQueue` of `enhancement_queue.rs`. A workspace stands for its id, so the maps keyed
by ids are lists with one entry for each workspace. The answers of the host during one call are
an argument of it, all but `worker`: that one follows the workers that live.
-/

namespace Ivygrep.Native

inductive WorkerLane where
  | hash
  | neural
deriving DecidableEq

inductive EnhancementPolicy where
  | hashOnly
  | maintainExisting
  | neural
deriving DecidableEq

/-- The derived order of the variants. -/
def EnhancementPolicy.rank : EnhancementPolicy → Nat
  | hashOnly => 0
  | maintainExisting => 1
  | neural => 2

/-- `MAX_PENDING`. -/
def maxPending : Nat := 1024

section

variable (Workspace : Type)

/-- A live worker process of a workspace. -/
structure LiveWorker where
  workspace : Workspace
  pid : Nat
deriving DecidableEq

/-- What a host answers during one call. A `start` that fails gives `none`, one that succeeds
    the process it started. `rootIsGone` is the probe of `workspace.rs`. -/
structure WorkerHost where
  freePlaces : WorkerLane → Nat
  lane : Workspace → Bool → Option WorkerLane
  needsHash : Workspace → Bool
  rootIsGone : Workspace → Bool
  start : Workspace → WorkerLane → Option Nat

structure PendingRequest where
  workspace : Workspace
  policy : EnhancementPolicy
  lane : WorkerLane
  recency : Nat
  hashFirst : Bool

structure StartedWorker where
  workspace : Workspace
  lane : WorkerLane
  pid : Nat

/-- `QueueState` with the counter beside it. -/
structure EnhancementQueue where
  pending : List (PendingRequest Workspace)
  started : List (StartedWorker Workspace)
  recency : Nat
  pendingLen : Nat

/-- A call of `start`, with what it returned. -/
structure StartCall where
  workspace : Workspace
  lane : WorkerLane
  hashWhileWaiting : Bool
  pid : Option Nat

/-- What the loop of `dispatch` changes. -/
structure DispatchState where
  pending : List (PendingRequest Workspace)
  started : List (StartedWorker Workspace)
  live : List (LiveWorker Workspace)
  capacity : WorkerLane → Nat
  starts : List (StartCall Workspace)

end

variable {Workspace : Type} [DecidableEq Workspace]

/-- `WorkerHost::worker`. -/
def worker (live : List (LiveWorker Workspace)) (workspace : Workspace) : Option Nat :=
  (live.find? fun process => process.workspace = workspace).map LiveWorker.pid

def EnhancementPolicy.lane (policy : EnhancementPolicy) (host : WorkerHost Workspace)
    (workspace : Workspace) : Option WorkerLane :=
  match policy with
  | hashOnly => if host.needsHash workspace then some .hash else none
  | maintainExisting => host.lane workspace false
  | neural => host.lane workspace true

/-! ## The map of pending requests -/

/-- `pending.get` and `pending.get_mut`. -/
def findPending (pending : List (PendingRequest Workspace)) (workspace : Workspace) :
    Option (PendingRequest Workspace) :=
  pending.find? fun request => request.workspace = workspace

def removePending (pending : List (PendingRequest Workspace)) (workspace : Workspace) :
    List (PendingRequest Workspace) :=
  pending.filter fun request => request.workspace ≠ workspace

/-- `pending.insert`, and a write through `pending.get_mut`. -/
def insertPending (pending : List (PendingRequest Workspace))
    (request : PendingRequest Workspace) : List (PendingRequest Workspace) :=
  request :: removePending pending request.workspace

namespace EnhancementQueue

def new : EnhancementQueue Workspace := ⟨[], [], 0, 0⟩

/-- One workspace of `touch`. -/
def touchOne (queue : EnhancementQueue Workspace) (workspace : Workspace) :
    EnhancementQueue Workspace :=
  let recency := queue.recency + 1
  match findPending queue.pending workspace with
  | some request =>
    { queue with recency, pending := insertPending queue.pending { request with recency } }
  | none => { queue with recency }

/-- A touch that finds the queue locked does nothing, so it is no event. -/
def touch (queue : EnhancementQueue Workspace) (workspaces : List Workspace) :
    EnhancementQueue Workspace :=
  if queue.pendingLen = 0 then queue else workspaces.foldl touchOne queue

/-- A higher policy that waits is kept, with its lane. -/
def mergePolicy (waiting : Option (PendingRequest Workspace)) (policy : EnhancementPolicy)
    (lane : WorkerLane) : EnhancementPolicy × WorkerLane :=
  match waiting with
  | some waiting =>
    if policy.rank < waiting.policy.rank then (waiting.policy, waiting.lane) else (policy, lane)
  | none => (policy, lane)

/-- One request too many evicts the oldest. -/
def evictOldest (pending : List (PendingRequest Workspace)) : List (PendingRequest Workspace) :=
  if pending.length > maxPending then
    match pending.argmin PendingRequest.recency with
    | some oldest => removePending pending oldest.workspace
    | none => pending
  else pending

def request (host : WorkerHost Workspace) (queue : EnhancementQueue Workspace)
    (workspace : Workspace) (policy : EnhancementPolicy) : EnhancementQueue Workspace :=
  match policy.lane host workspace with
  | none => queue
  | some lane =>
    let merged := mergePolicy (findPending queue.pending workspace) policy lane
    let recency := queue.recency + 1
    let pending := evictOldest (insertPending queue.pending
      { workspace, policy := merged.1, lane := merged.2, recency, hashFirst := true })
    { queue with pending, recency, pendingLen := pending.length }

end EnhancementQueue

/-! ## `dispatch` -/

namespace DispatchState

/-- `capacity.get_mut(&lane) -= 1`. -/
def takePlace (capacity : WorkerLane → Nat) (lane : WorkerLane) : WorkerLane → Nat :=
  fun other => if other = lane then capacity other - 1 else capacity other

/-- Calls `start`, and counts the worker when it lives. -/
def startWorker (host : WorkerHost Workspace) (state : DispatchState Workspace)
    (workspace : Workspace) (lane : WorkerLane) (hashWhileWaiting : Bool) :
    DispatchState Workspace :=
  let outcome := host.start workspace lane
  let starts := state.starts ++ [⟨workspace, lane, hashWhileWaiting, outcome⟩]
  match outcome with
  | none => { state with starts }
  | some process =>
    let live := ⟨workspace, process⟩ :: state.live
    match worker live workspace with
    | none => { state with starts, live }
    | some pid =>
      { state with
        starts
        live
        capacity := takePlace state.capacity lane
        started := ⟨workspace, lane, pid⟩ ::
          state.started.filter fun worker => worker.workspace ≠ workspace }

/-- One round of the loop. `none` when the request is not pending, where the source panics. -/
def dispatchOne (host : WorkerHost Workspace) (state : DispatchState Workspace)
    (workspace : Workspace) : Option (DispatchState Workspace) :=
  (findPending state.pending workspace).map fun request =>
    let hashWhileWaiting := decide (state.capacity request.lane = 0) &&
      decide (request.lane = .neural) && request.hashFirst && decide (state.capacity .hash > 0)
    if state.capacity request.lane = 0 ∧ hashWhileWaiting = false then state
    else if (worker state.live workspace).isSome then state
    else if hashWhileWaiting then
      let pending := insertPending state.pending { request with hashFirst := false }
      if host.needsHash workspace then
        startWorker host { state with pending } workspace .hash true
      else { state with pending }
    else
      match request.policy.lane host workspace with
      | none => { state with pending := removePending state.pending workspace }
      | some lane =>
        if state.capacity lane = 0 then
          { state with pending := insertPending state.pending { request with lane } }
        else
          startWorker host { state with pending := removePending state.pending workspace }
            workspace lane false

/-- Ends early when no lane has a place left. -/
def dispatchLoop (host : WorkerHost Workspace) :
    List Workspace → DispatchState Workspace → Option (DispatchState Workspace)
  | [], state => some state
  | workspace :: order, state =>
    if state.capacity .hash = 0 ∧ state.capacity .neural = 0 then some state
    else (dispatchOne host state workspace).bind (dispatchLoop host order)

end DispatchState

namespace EnhancementQueue

/-- The workers that this queue started and that still live. -/
def ownLive (queue : EnhancementQueue Workspace) (live : List (LiveWorker Workspace)) :
    List (StartedWorker Workspace) :=
  queue.started.filter fun started => worker live started.workspace = some started.pid

/-- The loop's state before its first round. -/
def dispatchStart (places : Nat) (host : WorkerHost Workspace) (live : List (LiveWorker Workspace))
    (queue : EnhancementQueue Workspace) : DispatchState Workspace where
  pending := queue.pending.filter fun request => !host.rootIsGone request.workspace
  started := queue.ownLive live
  live
  capacity lane := min (host.freePlaces lane)
    (places - ((queue.ownLive live).filter fun worker => worker.lane = lane).length)
  starts := []

/-- The waiting workspaces, the most recent first. -/
def dispatchOrder (pending : List (PendingRequest Workspace)) : List Workspace :=
  (pending.insertionSort fun left right => right.recency ≤ left.recency).map
    PendingRequest.workspace

/-- The queue after a dispatch, the workers that live then, and the calls of `start`. -/
def dispatch (places : Nat) (host : WorkerHost Workspace) (live : List (LiveWorker Workspace))
    (queue : EnhancementQueue Workspace) :
    Option (EnhancementQueue Workspace × List (LiveWorker Workspace) ×
      List (StartCall Workspace)) :=
  let state := dispatchStart places host live queue
  (DispatchState.dispatchLoop host (dispatchOrder state.pending) state).map fun state =>
    ({ queue with
        pending := state.pending
        started := state.started
        pendingLen := state.pending.length }, state.live, state.starts)

end EnhancementQueue

/-! ## Runs -/

inductive EnhancementEvent (Workspace : Type) where
  | request (host : WorkerHost Workspace) (workspace : Workspace) (policy : EnhancementPolicy)
  | touch (workspaces : List Workspace)
  | dispatch (host : WorkerHost Workspace)
  | exit (process : LiveWorker Workspace)

/-- The queue and the worker processes. -/
structure EnhancementSystem (Workspace : Type) where
  queue : EnhancementQueue Workspace
  live : List (LiveWorker Workspace)

namespace EnhancementSystem

/-- `none` when the code panics. The host has the same number of places in every event. -/
def step (places : Nat) (system : EnhancementSystem Workspace) :
    EnhancementEvent Workspace → Option (EnhancementSystem Workspace)
  | .request host workspace policy =>
    some { system with queue := system.queue.request host workspace policy }
  | .touch workspaces => some { system with queue := system.queue.touch workspaces }
  | .dispatch host =>
    (system.queue.dispatch places host system.live).map fun result => ⟨result.1, result.2.1⟩
  | .exit process => some { system with live := system.live.erase process }

/-- The system after a history of events. -/
def run (places : Nat) (system : EnhancementSystem Workspace)
    (history : List (EnhancementEvent Workspace)) : Option (EnhancementSystem Workspace) :=
  history.foldlM (step places) system

end EnhancementSystem

end Ivygrep.Native
