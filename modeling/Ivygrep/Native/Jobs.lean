import Ivygrep.Native.Str

/-!
# The job ledger

The ledger of `jobs.rs`, shared by all processes that work on one workspace. `update_job` holds
the job lock from the read of the file to its replacement, so a transaction is one function on
the ledger; the clock, the process and the new nonce are arguments of it.
-/

namespace Ivygrep.Native

inductive JobKind where
  | watcher
  | indexing
  | enhancement
deriving DecidableEq

/-- `BTreeMap<String, String>` as its entries in key order. -/
abbrev Details := List (Str × Str)

/-- `BTreeMap::insert`. -/
def Details.insert (key value : Str) : Details → Details
  | [] => [(key, value)]
  | entry :: details =>
    if entry.1 = key then (key, value) :: details
    else if key < entry.1 then (key, value) :: entry :: details
    else entry :: Details.insert key value details

structure JobRecord where
  kind : JobKind
  pid : Option UInt32
  pidStartTime : Option Str
  nonce : Option Str
  generation : UInt64
  startedAtUnix : Option UInt64
  heartbeatAtUnix : Option UInt64
  phase : Str
  attempt : UInt32
  lastError : Option Str
  details : Details
  active : Bool
deriving DecidableEq

structure JobLedger where
  jobs : List JobRecord
deriving DecidableEq

namespace JobLedger

/-- The first record of the kind. -/
def get (ledger : JobLedger) (kind : JobKind) : Option JobRecord :=
  ledger.jobs.find? fun job => job.kind = kind

/-- Replaces the first record of the kind. -/
def replaceFirst (record : JobRecord) : List JobRecord → List JobRecord
  | [] => []
  | job :: jobs => if job.kind = record.kind then record :: jobs else job :: replaceFirst record jobs

def upsert (ledger : JobLedger) (record : JobRecord) : JobLedger :=
  match ledger.get record.kind with
  | some _ => ⟨replaceFirst record ledger.jobs⟩
  | none => ⟨ledger.jobs ++ [record]⟩

end JobLedger

structure JobUpdate where
  phase : Option Str
  lastError : Option (Option Str)
  details : Details
  active : Option Bool

/-- The process that starts a job, with its new nonce and its clock. -/
structure StartArgs where
  phase : Str
  attempt : UInt32
  pid : UInt32
  pidStartTime : Option Str
  nonce : Str
  now : UInt64

/-- The `+ 1` wraps around in the release profile, which has no overflow checks. -/
def startJob (kind : JobKind) (args : StartArgs) (ledger : JobLedger) : JobLedger × JobRecord :=
  let generation := ((ledger.get kind).map fun job => job.generation + 1).getD 1
  let details := ((ledger.get kind).map fun job => job.details).getD []
  let record : JobRecord :=
    { kind
      pid := some args.pid
      pidStartTime := args.pidStartTime
      nonce := some args.nonce
      generation
      startedAtUnix := some args.now
      heartbeatAtUnix := some args.now
      phase := args.phase
      attempt := args.attempt
      lastError := none
      details := Details.insert "last_started_at_unix".toList
        (Nat.toDigits 10 args.now.toNat) details
      active := true }
  (ledger.upsert record, record)

def applyHeartbeatUpdate (record : JobRecord) (update : JobUpdate) (now : UInt64) : JobRecord :=
  { record with
    heartbeatAtUnix := some now
    phase := update.phase.getD record.phase
    lastError := update.lastError.getD record.lastError
    active := update.active.getD record.active
    details := update.details.foldl
      (fun details entry => Details.insert entry.1 entry.2 details) record.details }

def finishRecord (record : JobRecord) (phase : Str) (lastError : Option Str) (now : UInt64) :
    JobRecord :=
  { record with
    active := false
    pid := none
    pidStartTime := none
    nonce := none
    heartbeatAtUnix := some now
    phase
    lastError }

/-- The record of the kind, when it has the nonce. -/
def currentRecord (ledger : JobLedger) (kind : JobKind) (expectedNonce : Str) : Option JobRecord :=
  (ledger.get kind).filter fun record => record.nonce = some expectedNonce

/-- The body that the two conditional transactions share. -/
def updateIfCurrent (kind : JobKind) (expectedNonce : Str) (change : JobRecord → JobRecord)
    (ledger : JobLedger) : JobLedger × Option JobRecord :=
  match currentRecord ledger kind expectedNonce with
  | none => (ledger, none)
  | some record => (ledger.upsert (change record), some (change record))

def heartbeatJobIfCurrent (kind : JobKind) (expectedNonce : Str) (update : JobUpdate)
    (now : UInt64) : JobLedger → JobLedger × Option JobRecord :=
  updateIfCurrent kind expectedNonce fun record => applyHeartbeatUpdate record update now

def finishJobIfCurrent (kind : JobKind) (expectedNonce : Str) (phase : Str)
    (lastError : Option Str) (now : UInt64) : JobLedger → JobLedger × Option JobRecord :=
  updateIfCurrent kind expectedNonce fun record => finishRecord record phase lastError now

/-- A transaction of some process. -/
inductive Transaction where
  | start (kind : JobKind) (args : StartArgs)
  | heartbeat (kind : JobKind) (expectedNonce : Str) (update : JobUpdate) (now : UInt64)
  | finish (kind : JobKind) (expectedNonce phase : Str) (lastError : Option Str) (now : UInt64)

namespace Transaction

def kind : Transaction → JobKind
  | start kind _ | heartbeat kind .. | finish kind .. => kind

/-- The ledger after the transaction, and what its caller gets. -/
def apply : Transaction → JobLedger → JobLedger × Option JobRecord
  | start kind args, ledger => ((startJob kind args ledger).1, some (startJob kind args ledger).2)
  | heartbeat kind expectedNonce update now, ledger =>
    heartbeatJobIfCurrent kind expectedNonce update now ledger
  | finish kind expectedNonce phase lastError now, ledger =>
    finishJobIfCurrent kind expectedNonce phase lastError now ledger

end Transaction

/-- The ledger after transactions in the order in which they took the lock. -/
def runLedger (ledger : JobLedger) (history : List Transaction) : JobLedger :=
  history.foldl (fun ledger transaction => (transaction.apply ledger).1) ledger

end Ivygrep.Native
