import Ivygrep.Native.Str

/-!
# Workspace mode leases

`WorkspaceModeCoordinator` of `daemon.rs`: the shared leases of one search mode, or one
exclusive lease, with a reservation for the next mode. Each turn of a waiting loop is one
critical section; the threads between two turns are parked on the condition variable.
-/

namespace Ivygrep.Native

structure WorkspaceModeCoordinatorState where
  activeMode : Option Bool
  activeLeases : Nat
  nextMode : Option Bool
  nextModeGeneration : UInt64
  nextModeWaiters : Nat
  exclusiveActive : Bool
  exclusiveWaiters : Nat
  deriving DecidableEq, Repr

/-- What a lease grants. The code keeps only whether it is exclusive. -/
inductive LeaseKind where
  | shared (mode : Bool)
  | exclusive
  deriving DecidableEq, Repr

/-- A call that has not returned, with the generation that it reserved. -/
inductive AcquireCall where
  | shared (requestedMode : Bool) (reservedNextModeGeneration : Option UInt64)
  | exclusive
  deriving DecidableEq, Repr

/-- How a turn of a waiting loop ends. -/
inductive Turn where
  | acquired (kind : LeaseKind)
  | cancelled
  | parked (call : AcquireCall)
  deriving DecidableEq, Repr

/-- A turn, the state that it leaves, and whether it called `notify_all`. -/
structure TurnResult where
  turn : Turn
  state : WorkspaceModeCoordinatorState
  notifyAll : Bool
  deriving DecidableEq, Repr

namespace WorkspaceModeCoordinatorState

def default : WorkspaceModeCoordinatorState := ⟨none, 0, none, 0, 0, false, 0⟩

/-- The branch that cancels a call of `acquire_shared`. -/
def cancelShared (state : WorkspaceModeCoordinatorState) (requestedMode : Bool)
    (reserved : Option UInt64) : TurnResult :=
  if state.nextMode = some requestedMode ∧ reserved = some state.nextModeGeneration then
    let waiters := state.nextModeWaiters - 1
    ⟨.cancelled,
      { state with
        nextModeWaiters := waiters
        nextMode := if waiters = 0 then none else state.nextMode }, true⟩
  else ⟨.cancelled, state, false⟩

/-- The reservation that a call of `acquire_shared` makes or joins before it waits. -/
def reserve (state : WorkspaceModeCoordinatorState) (requestedMode : Bool)
    (reserved : Option UInt64) : WorkspaceModeCoordinatorState × Option UInt64 :=
  if ¬state.exclusiveActive ∧ state.exclusiveWaiters = 0 ∧
      state.activeMode ≠ some requestedMode then
    if state.nextMode = none then
      ({ state with
        nextMode := some requestedMode
        nextModeGeneration := state.nextModeGeneration + 1
        nextModeWaiters := 1 }, some (state.nextModeGeneration + 1))
    else if state.nextMode = some requestedMode ∧
        reserved ≠ some state.nextModeGeneration then
      ({ state with nextModeWaiters := state.nextModeWaiters + 1 },
        some state.nextModeGeneration)
    else (state, reserved)
  else (state, reserved)

/-- Nothing is leased, and nobody has reserved the other mode. -/
def canStart (state : WorkspaceModeCoordinatorState) (requestedMode : Bool) : Bool :=
  !state.exclusiveActive && state.exclusiveWaiters == 0 && state.activeLeases == 0 &&
    state.nextMode.all (· == requestedMode)

/-- The requested mode is active, and nobody has reserved a mode. -/
def canJoin (state : WorkspaceModeCoordinatorState) (requestedMode : Bool) : Bool :=
  !state.exclusiveActive && state.exclusiveWaiters == 0 &&
    state.activeMode == some requestedMode && state.nextMode == none

/-- The state after the first lease of a mode, which takes the reservation. -/
def start (state : WorkspaceModeCoordinatorState) (requestedMode : Bool) :
    WorkspaceModeCoordinatorState :=
  { state with
    activeMode := some requestedMode, activeLeases := 1, nextMode := none, nextModeWaiters := 0 }

/-- One turn of the loop of `acquire_shared`. `flag` is what it loads from the
    cancellation flag. -/
def acquireSharedTurn (state : WorkspaceModeCoordinatorState) (requestedMode : Bool)
    (reserved : Option UInt64) (flag : Bool) : TurnResult :=
  if flag then state.cancelShared requestedMode reserved
  else if state.canStart requestedMode then
    ⟨.acquired (.shared requestedMode), state.start requestedMode, false⟩
  else if state.canJoin requestedMode then
    ⟨.acquired (.shared requestedMode), { state with activeLeases := state.activeLeases + 1 },
      false⟩
  else
    let (state, reserved) := state.reserve requestedMode reserved
    ⟨.parked (.shared requestedMode reserved), state, false⟩

/-- `try_acquire_shared`, without a lease if the mode is not available right now. -/
def tryAcquireShared (state : WorkspaceModeCoordinatorState) (requestedMode : Bool) :
    Option WorkspaceModeCoordinatorState :=
  if state.exclusiveActive ∨ 0 < state.exclusiveWaiters then none
  else if state.activeLeases = 0 ∧ state.nextMode.all (· == requestedMode) then
    some (state.start requestedMode)
  else if state.activeMode = some requestedMode ∧ state.nextMode = none then
    some { state with activeLeases := state.activeLeases + 1 }
  else none

/-- One turn of the loop of `acquire_exclusive`, by a thread that is counted in
    `exclusive_waiters`. -/
def acquireExclusiveTurn (state : WorkspaceModeCoordinatorState) (flag : Bool) : TurnResult :=
  if flag then
    ⟨.cancelled, { state with exclusiveWaiters := state.exclusiveWaiters - 1 }, true⟩
  else if state.exclusiveActive ∨ 0 < state.activeLeases then ⟨.parked .exclusive, state, false⟩
  else
    ⟨.acquired .exclusive,
      { state with
        exclusiveWaiters := state.exclusiveWaiters - 1, exclusiveActive := true }, false⟩

/-- `WorkspaceModeLease::drop`, and whether it called `notify_all`. -/
def dropLease (state : WorkspaceModeCoordinatorState) (kind : LeaseKind) :
    WorkspaceModeCoordinatorState × Bool :=
  match kind with
  | .exclusive => ({ state with exclusiveActive := false }, true)
  | .shared _ =>
    let state := { state with activeLeases := state.activeLeases - 1 }
    (state, state.activeLeases == 0)

end WorkspaceModeCoordinatorState

/-! ## Threads and leases -/

/-- A thread parked on the condition variable. `notified` is set by a `notify_all` since
    it parked. -/
structure Waiter (Thread : Type) where
  thread : Thread
  cancellable : Bool
  call : AcquireCall
  notified : Bool

structure WorkspaceModeLease (Thread : Type) where
  holder : Thread
  kind : LeaseKind

/-- A coordinator with the threads that wait for it and its live leases. -/
structure WorkspaceModeCoordinator (Thread : Type) where
  state : WorkspaceModeCoordinatorState
  waiters : List (Waiter Thread)
  leases : List (WorkspaceModeLease Thread)

variable {Thread : Type}

/-- One turn of the call that a thread is in. -/
def AcquireCall.turn (call : AcquireCall) (state : WorkspaceModeCoordinatorState) (flag : Bool) :
    TurnResult :=
  match call with
  | .shared requestedMode reserved => state.acquireSharedTurn requestedMode reserved flag
  | .exclusive => state.acquireExclusiveTurn flag

/-- `notify_all`, if it was called. -/
def notifyWaiters (notifyAll : Bool) (waiters : List (Waiter Thread)) : List (Waiter Thread) :=
  if notifyAll then waiters.map fun waiter => { waiter with notified := true } else waiters

namespace WorkspaceModeCoordinator

def default : WorkspaceModeCoordinator Thread := ⟨.default, [], []⟩

/-- A thread takes a turn while the threads in `rest` are parked. -/
def takeTurn (coordinator : WorkspaceModeCoordinator Thread) (rest : List (Waiter Thread))
    (waiter : Waiter Thread) (flag : Bool) : WorkspaceModeCoordinator Thread :=
  let result := waiter.call.turn coordinator.state flag
  let rest := notifyWaiters result.notifyAll rest
  match result.turn with
  | .acquired kind => ⟨result.state, rest, coordinator.leases ++ [⟨waiter.thread, kind⟩]⟩
  | .cancelled => ⟨result.state, rest, coordinator.leases⟩
  | .parked call =>
    ⟨result.state, rest ++ [{ waiter with call, notified := false }], coordinator.leases⟩

/-- `acquire_shared` up to the return or the first wait. -/
def acquireShared (coordinator : WorkspaceModeCoordinator Thread) (thread : Thread)
    (requestedMode cancellable flag : Bool) : WorkspaceModeCoordinator Thread :=
  coordinator.takeTurn coordinator.waiters
    ⟨thread, cancellable, .shared requestedMode none, false⟩ flag

/-- `acquire_exclusive` up to the return or the first wait. It loads the flag on entry and
    in the first turn. -/
def acquireExclusive (coordinator : WorkspaceModeCoordinator Thread) (thread : Thread)
    (cancellable entryFlag flag : Bool) : WorkspaceModeCoordinator Thread :=
  if entryFlag then coordinator
  else
    let state := { coordinator.state with
      exclusiveWaiters := coordinator.state.exclusiveWaiters + 1 }
    takeTurn { coordinator with state } coordinator.waiters
      ⟨thread, cancellable, .exclusive, false⟩ flag

/-- `try_acquire_shared` with the lease that it returns. -/
def tryAcquireShared (coordinator : WorkspaceModeCoordinator Thread) (thread : Thread)
    (requestedMode : Bool) : WorkspaceModeCoordinator Thread :=
  match coordinator.state.tryAcquireShared requestedMode with
  | none => coordinator
  | some state =>
    { coordinator with
      state, leases := coordinator.leases ++ [⟨thread, .shared requestedMode⟩] }

/-- The drop of a lease while the leases in `rest` stay. -/
def dropLease (coordinator : WorkspaceModeCoordinator Thread)
    (rest : List (WorkspaceModeLease Thread)) (lease : WorkspaceModeLease Thread) :
    WorkspaceModeCoordinator Thread :=
  let (state, notifyAll) := coordinator.state.dropLease lease.kind
  ⟨state, notifyWaiters notifyAll coordinator.waiters, rest⟩

end WorkspaceModeCoordinator

/-! ## Steps -/

/-- What a thread does in one critical section. A flag is what a load of the cancellation
    flag returns. -/
inductive LeaseEvent (Thread : Type) where
  | acquireShared (thread : Thread) (requestedMode cancellable flag : Bool)
  | acquireExclusive (thread : Thread) (cancellable entryFlag flag : Bool)
  | tryAcquireShared (thread : Thread) (requestedMode : Bool)
  | wake (waiter : Waiter Thread) (flag : Bool)
  | dropLease (lease : WorkspaceModeLease Thread)

def LeaseEvent.thread : LeaseEvent Thread → Thread
  | .acquireShared thread .. => thread
  | .acquireExclusive thread .. => thread
  | .tryAcquireShared thread _ => thread
  | .wake waiter _ => waiter.thread
  | .dropLease lease => lease.holder

/-- The mode that a thread asks for and has not been cancelled for. -/
def LeaseEvent.asksFor : LeaseEvent Thread → Option Bool
  | .acquireShared _ requestedMode _ flag => if flag then none else some requestedMode
  | .acquireExclusive .. => none
  | .tryAcquireShared _ requestedMode => some requestedMode
  | .wake waiter flag =>
    match waiter.call with
    | .shared requestedMode _ => if flag then none else some requestedMode
    | .exclusive => none
  | .dropLease _ => none

/-- The steps of a coordinator. A parked thread can take its turn at any time: after a
    notification, a timeout, or for no reason. Only a cancellable call loads a flag. -/
inductive LeaseStep : WorkspaceModeCoordinator Thread → LeaseEvent Thread →
    WorkspaceModeCoordinator Thread → Prop where
  | acquireShared (coordinator : WorkspaceModeCoordinator Thread) (thread : Thread)
      (requestedMode cancellable flag : Bool) (hflag : flag = true → cancellable = true) :
      LeaseStep coordinator (.acquireShared thread requestedMode cancellable flag)
        (coordinator.acquireShared thread requestedMode cancellable flag)
  | acquireExclusive (coordinator : WorkspaceModeCoordinator Thread) (thread : Thread)
      (cancellable entryFlag flag : Bool) (hentry : entryFlag = true → cancellable = true)
      (hflag : flag = true → cancellable = true) :
      LeaseStep coordinator (.acquireExclusive thread cancellable entryFlag flag)
        (coordinator.acquireExclusive thread cancellable entryFlag flag)
  | tryAcquireShared (coordinator : WorkspaceModeCoordinator Thread) (thread : Thread)
      (requestedMode : Bool) :
      LeaseStep coordinator (.tryAcquireShared thread requestedMode)
        (coordinator.tryAcquireShared thread requestedMode)
  | wake (coordinator : WorkspaceModeCoordinator Thread) (front back : List (Waiter Thread))
      (waiter : Waiter Thread) (flag : Bool)
      (hwaiters : coordinator.waiters = front ++ waiter :: back)
      (hflag : flag = true → waiter.cancellable = true) :
      LeaseStep coordinator (.wake waiter flag) (coordinator.takeTurn (front ++ back) waiter flag)
  | dropLease (coordinator : WorkspaceModeCoordinator Thread)
      (front back : List (WorkspaceModeLease Thread)) (lease : WorkspaceModeLease Thread)
      (hleases : coordinator.leases = front ++ lease :: back) :
      LeaseStep coordinator (.dropLease lease) (coordinator.dropLease (front ++ back) lease)

end Ivygrep.Native
