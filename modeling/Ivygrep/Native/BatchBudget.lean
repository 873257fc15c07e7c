import Mathlib.Logic.Relation

/-!
# The budget of indexing batches

`BatchBudget` of `batch_budget.rs`, as steps of any number of threads. The critical section of an
`acquire`, of a drop and of `stop` is one step, and so is the `notify_all` after a drop or `stop`.
-/

namespace Ivygrep.Native

/-- How far an `acquire` is. `waiting` is inside `wait`; a `woken` call looks at its condition again.
    A reservation that is `dropping` has given its bytes back and will notify. -/
inductive AcquireStage where
  | calling
  | waiting
  | woken
  | refused
  | reserved
  | dropping
  | dropped
deriving DecidableEq, Repr

structure BudgetCall where
  bytes : UInt64
  stage : AcquireStage
deriving DecidableEq, Repr

/-- A notified call. -/
def BudgetCall.wake (call : BudgetCall) : BudgetCall :=
  if call.stage = .waiting then { call with stage := .woken } else call

/-- The state behind the mutex, the calls of `acquire` so far, and the number of `stop`s that will
    notify. -/
structure BatchBudget where
  maxBytes : UInt64
  held : UInt64
  stopped : Bool
  calls : List BudgetCall
  stopping : Nat
deriving DecidableEq, Repr

namespace BatchBudget

/-- `BatchBudget::new`. -/
def new (maxBytes : UInt64) : BatchBudget := ⟨maxBytes, 0, false, [], 0⟩

variable (budget : BatchBudget)

/-- `max_bytes.saturating_sub`. -/
def room : UInt64 := if budget.held ≤ budget.maxBytes then budget.maxBytes - budget.held else 0

/-- The condition of the loop around `wait`. -/
def mustWait (bytes : UInt64) : Bool :=
  !budget.stopped && decide (0 < budget.held) && decide (budget.room < bytes)

def setStage (index : Nat) (call : BudgetCall) (stage : AcquireStage) : BatchBudget :=
  { budget with calls := budget.calls.set index { call with stage := stage } }

/-- The critical section of `acquire`, at its start or after `wait`. -/
def check (index : Nat) (call : BudgetCall) : BatchBudget :=
  if budget.mustWait call.bytes then budget.setStage index call .waiting
  else if budget.stopped then budget.setStage index call .refused
  else { budget.setStage index call .reserved with held := budget.held + call.bytes }

/-- The critical section of `Reservation::drop`. -/
def release (index : Nat) (call : BudgetCall) : BatchBudget :=
  { budget.setStage index call .dropping with held := budget.held - call.bytes }

/-- `notify_all`. -/
def notifyAll : BatchBudget := { budget with calls := budget.calls.map BudgetCall.wake }

/-- The bytes of the live reservations. -/
def live : List UInt64 :=
  (budget.calls.filter fun call => call.stage = .reserved).map BudgetCall.bytes

end BatchBudget

/-- The steps of all threads. -/
inductive BudgetStep : BatchBudget → BatchBudget → Prop where
  | acquire (budget : BatchBudget) (bytes : UInt64) :
      BudgetStep budget { budget with calls := budget.calls ++ [⟨bytes, .calling⟩] }
  | check (budget : BatchBudget) (index : Nat) (call : BudgetCall)
      (hcall : budget.calls[index]? = some call)
      (hstage : call.stage = .calling ∨ call.stage = .woken) :
      BudgetStep budget (budget.check index call)
  | release (budget : BatchBudget) (index : Nat) (call : BudgetCall)
      (hcall : budget.calls[index]? = some call) (hstage : call.stage = .reserved) :
      BudgetStep budget (budget.release index call)
  | notifyDrop (budget : BatchBudget) (index : Nat) (call : BudgetCall)
      (hcall : budget.calls[index]? = some call) (hstage : call.stage = .dropping) :
      BudgetStep budget (budget.setStage index call .dropped).notifyAll
  | stop (budget : BatchBudget) :
      BudgetStep budget { budget with stopped := true, stopping := budget.stopping + 1 }
  | notifyStop (budget : BatchBudget) (hstopping : 0 < budget.stopping) :
      BudgetStep budget { budget with stopping := budget.stopping - 1 }.notifyAll

end Ivygrep.Native
