import Mathlib
import Ivygrep.Native.Str

/-!
# The registry of running searches

`SearchCancellationRegistry`, `register_search`, `cancel_search` and the drop of an
`ActiveSearchRegistration` of `daemon.rs`. Each of them holds the lock of the registry from its
first look to its last write, so a run is a sequence of whole calls.
-/

namespace Ivygrep.Native

abbrev Uuid := BitVec 128

namespace Uuid

/-- A number below 16 as a lower-case hexadecimal digit. -/
def digit (n : Nat) : Char := "0123456789abcdef".toList.getD n '0'

/-- `count` hexadecimal digits, the last of which is digit number `place` from the right. -/
def digits (id : Uuid) (place count : Nat) : Str :=
  (List.range count).reverse.map fun i => digit (id.toNat / 16 ^ (place + i) % 16)

/-- `Display`: groups of 8, 4, 4, 4 and 12 digits. -/
def toStr (id : Uuid) : Str :=
  Str.join ['-'] [id.digits 24 8, id.digits 20 4, id.digits 16 4, id.digits 12 4, id.digits 0 12]

end Uuid

/-! ## Cancellation tokens -/

/-- What all clones of a `SearchCancellation` share. -/
structure CancellationCell where
  flag : Bool
  deadlineExpired : Bool
  signal : Bool
  finishedSignal : Bool
  deriving DecidableEq, Repr

namespace CancellationCell

/-- `SearchCancellation::new`. -/
def new (cancelled : Bool) : CancellationCell := ⟨cancelled, false, cancelled, false⟩

def cancel (cell : CancellationCell) : CancellationCell :=
  { cell with flag := true, signal := true }

def finish (cell : CancellationCell) : CancellationCell := { cell with finishedSignal := true }

end CancellationCell

/-- A clone of a token: the number of its cell, which `Arc::ptr_eq` compares. -/
structure SearchCancellation where
  cell : Nat
  deriving DecidableEq, Repr

inductive SearchCancellationEntry where
  | active (cancellation : SearchCancellation)
  | tombstone (cancellation : SearchCancellation)
  deriving DecidableEq, Repr

structure SearchCancellationRegistry where
  entries : Uuid → Option SearchCancellationEntry
  tombstones : List Uuid

structure ActiveSearchRegistration where
  requestId : Uuid
  cancellation : SearchCancellation
  deriving DecidableEq, Repr

/-- The registry with the cells of all tokens and the registrations that callers hold. -/
structure SearchCancellations where
  registry : SearchCancellationRegistry
  cells : List CancellationCell
  registrations : List ActiveSearchRegistration

def maxSearchCancellationTombstones : Nat := 256

namespace SearchCancellationRegistry

def default : SearchCancellationRegistry := ⟨fun _ => none, []⟩

def isTombstone (entries : Uuid → Option SearchCancellationEntry) (requestId : Uuid) : Bool :=
  match entries requestId with
  | some (.tombstone _) => true
  | _ => false

/-- The loop of `cancel_search` that drops the oldest tombstones. -/
def expire (entries : Uuid → Option SearchCancellationEntry) :
    List Uuid → SearchCancellationRegistry
  | [] => ⟨entries, []⟩
  | expired :: rest =>
    if maxSearchCancellationTombstones < (expired :: rest).length then
      expire (if isTombstone entries expired then Function.update entries expired none else entries)
        rest
    else ⟨entries, expired :: rest⟩

end SearchCancellationRegistry

namespace SearchCancellations

def default : SearchCancellations := ⟨.default, [], []⟩

/-- `is_cancelled`. -/
def isCancelled (searches : SearchCancellations) (cancellation : SearchCancellation) : Bool :=
  (searches.cells[cancellation.cell]?).any CancellationCell.flag

/-- The token that a new cell gets. -/
def fresh (searches : SearchCancellations) : SearchCancellation := ⟨searches.cells.length⟩

/-- `cancellation.cancel()`. -/
def cancel (searches : SearchCancellations) (cancellation : SearchCancellation) :
    SearchCancellations :=
  { searches with cells := searches.cells.modify cancellation.cell CancellationCell.cancel }

/-- Makes a token the active one of an id, and hands out its registration. -/
def activate (searches : SearchCancellations) (requestId : Uuid)
    (cancellation : SearchCancellation) : SearchCancellations :=
  { searches with
    registry.entries :=
      Function.update searches.registry.entries requestId (some (.active cancellation))
    registrations := searches.registrations ++ [⟨requestId, cancellation⟩] }

def alreadyActive (requestId : Uuid) : Str :=
  "search request ".toList ++ requestId.toStr ++ " is already active".toList

def registerSearch (searches : SearchCancellations) (requestId : Option Uuid) :
    SearchCancellations × Except Str (Option ActiveSearchRegistration) :=
  match requestId with
  | none => (searches, .ok none)
  | some requestId =>
    match searches.registry.entries requestId with
    | some (.active _) => (searches, .error (alreadyActive requestId))
    | some (.tombstone cancellation) =>
      let unmarked := { searches with
        registry.tombstones := searches.registry.tombstones.filter (· ≠ requestId) }
      (unmarked.activate requestId cancellation, .ok (some ⟨requestId, cancellation⟩))
    | none =>
      let created := { searches with cells := searches.cells ++ [CancellationCell.new false] }
      (created.activate requestId searches.fresh, .ok (some ⟨requestId, searches.fresh⟩))

def cancelSearch (searches : SearchCancellations) (requestId : Uuid) :
    SearchCancellations × Option SearchCancellation :=
  match searches.registry.entries requestId with
  | some (.active cancellation) => (searches.cancel cancellation, some cancellation)
  | some (.tombstone cancellation) => (searches.cancel cancellation, none)
  | none =>
    let marked := Function.update searches.registry.entries requestId
      (some (.tombstone searches.fresh))
    ({ searches with
      registry := .expire marked (searches.registry.tombstones ++ [requestId])
      cells := searches.cells ++ [CancellationCell.new true] }, none)

/-- `ActiveSearchRegistration::drop`. It signals its end after it has unlocked the registry,
    which no other call looks at. -/
def dropRegistration (searches : SearchCancellations) (registration : ActiveSearchRegistration) :
    SearchCancellations :=
  let ownsEntry := decide
    (searches.registry.entries registration.requestId = some (.active registration.cancellation))
  { registry.entries :=
      if ownsEntry then Function.update searches.registry.entries registration.requestId none
      else searches.registry.entries
    registry.tombstones := searches.registry.tombstones
    cells := searches.cells.modify registration.cancellation.cell CancellationCell.finish
    registrations := searches.registrations.erase registration }

end SearchCancellations

/-! ## Runs -/

/-- A call with what it returned. -/
inductive CancellationEvent where
  | register (requestId : Option Uuid) (result : Except Str (Option ActiveSearchRegistration))
  | cancel (requestId : Uuid) (result : Option SearchCancellation)
  | drop (registration : ActiveSearchRegistration)

/-- A registration can be dropped by who holds it. -/
inductive CancellationStep : SearchCancellations → CancellationEvent → SearchCancellations → Prop where
  | register (searches : SearchCancellations) (requestId : Option Uuid) :
      CancellationStep searches (.register requestId (searches.registerSearch requestId).2)
        (searches.registerSearch requestId).1
  | cancel (searches : SearchCancellations) (requestId : Uuid) :
      CancellationStep searches (.cancel requestId (searches.cancelSearch requestId).2)
        (searches.cancelSearch requestId).1
  | drop (searches : SearchCancellations) (registration : ActiveSearchRegistration)
      (hheld : registration ∈ searches.registrations) :
      CancellationStep searches (.drop registration) (searches.dropRegistration registration)

/-- Calls in any order, from a state on. -/
inductive CancellationRun (start : SearchCancellations) :
    List CancellationEvent → SearchCancellations → Prop where
  | init : CancellationRun start [] start
  | step {events : List CancellationEvent} {event : CancellationEvent}
      {searches next : SearchCancellations} (h : CancellationRun start events searches)
      (hstep : CancellationStep searches event next) :
      CancellationRun start (events ++ [event]) next

end Ivygrep.Native
