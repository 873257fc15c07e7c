import Ivygrep.Native.Merkle

/-!
# Coalesced index requests

`join_or_lead_index`, `InflightIndexLead` and `await_coalesced_index` of `daemon.rs`: one
request leads the index run of a workspace, and requests with the same options follow it.
Publishing and dropping a lead each remove the registry entry in one critical section and
then touch the lead's own channel.
-/

namespace Ivygrep.Native

/-- The responses that an index run ends with. -/
inductive DaemonResponse where
  | ack (message : Str)
  | error (message : Str)
  deriving DecidableEq, Repr

/-- A registry entry. Its receiver is that of the lead with this number. -/
structure InflightIndex where
  watch : Bool
  skipGitignore : Bool
  outcome : Nat
  deriving DecidableEq, Repr

/-- How far a lead is: `publishing` and `dropping` lie between the two parts of
    `publish` and `drop`. -/
inductive LeadStage where
  | registered
  | publishing
  | published
  | dropping
  | dropped
  deriving DecidableEq, Repr

/-- A lead with the value of its channel, and the response that it was published with. -/
structure InflightIndexLead where
  workspaceId : Str
  outcome : Option DaemonResponse
  published : Option DaemonResponse
  stage : LeadStage
  deriving DecidableEq, Repr

/-- A request that awaits the outcome of a lead. -/
structure IndexFollower where
  lead : Nat
  received : Option DaemonResponse
  deriving DecidableEq, Repr

structure InflightIndexes where
  registry : BTreeMap Str InflightIndex
  leads : List InflightIndexLead
  followers : List IndexFollower

namespace InflightIndexes

def default : InflightIndexes := ⟨∅, [], []⟩

/-- `index_in_flight`. -/
def indexInFlight (indexes : InflightIndexes) (workspaceId : Str) : Bool :=
  indexes.registry.contains workspaceId

/-- `join_or_lead_index`. With other options than the entry's it gives no slot. -/
def joinOrLeadIndex (indexes : InflightIndexes) (workspaceId : Str)
    (watch skipGitignore : Bool) : InflightIndexes :=
  match indexes.registry[workspaceId]? with
  | some existing =>
    if existing.watch == watch && existing.skipGitignore == skipGitignore then
      { indexes with followers := indexes.followers ++ [⟨existing.outcome, none⟩] }
    else indexes
  | none =>
    { indexes with
      registry := indexes.registry.insert workspaceId
        ⟨watch, skipGitignore, indexes.leads.length⟩
      leads := indexes.leads ++ [⟨workspaceId, none, none, .registered⟩] }

def abortMessage : Str := "index request aborted before completion".toList

/-- The first part of `InflightIndexLead::publish`. -/
def publishRemove (indexes : InflightIndexes) (index : Nat) (lead : InflightIndexLead)
    (response : DaemonResponse) : InflightIndexes :=
  { indexes with
    registry := indexes.registry.erase lead.workspaceId
    leads := indexes.leads.set index
      { lead with published := some response, stage := .publishing } }

/-- The second part of `InflightIndexLead::publish`. -/
def publishSend (indexes : InflightIndexes) (index : Nat) (lead : InflightIndexLead) :
    InflightIndexes :=
  { indexes with
    leads := indexes.leads.set index { lead with outcome := lead.published, stage := .published } }

/-- The first part of `InflightIndexLead::drop`. -/
def dropRemove (indexes : InflightIndexes) (index : Nat) (lead : InflightIndexLead) :
    InflightIndexes :=
  { indexes with
    registry := indexes.registry.erase lead.workspaceId
    leads := indexes.leads.set index { lead with stage := .dropping } }

/-- The second part of `InflightIndexLead::drop`, after which the sender is gone. -/
def dropSend (indexes : InflightIndexes) (index : Nat) (lead : InflightIndexLead) :
    InflightIndexes :=
  { indexes with
    leads := indexes.leads.set index
      { lead with
        outcome := some (lead.outcome.getD (.error abortMessage)), stage := .dropped } }

/-- `await_coalesced_index`, as far as the channel lets it return. -/
def awaitCoalescedIndex (lead : InflightIndexLead) : Option DaemonResponse :=
  if lead.stage = .dropped then
    some (lead.outcome.getD (.error "coalesced index request aborted".toList))
  else lead.outcome

/-- A follower takes the outcome of its lead. -/
def receive (indexes : InflightIndexes) (index : Nat) (follower : IndexFollower)
    (response : DaemonResponse) : InflightIndexes :=
  { indexes with
    followers := indexes.followers.set index { follower with received := some response } }

end InflightIndexes

/-! ## Steps -/

inductive FlightEvent where
  | joinOrLeadIndex (workspaceId : Str) (watch skipGitignore : Bool)
  | publishRemove (index : Nat) (response : DaemonResponse)
  | publishSend (index : Nat)
  | dropRemove (index : Nat)
  | dropSend (index : Nat)
  | receive (index : Nat)
  deriving DecidableEq, Repr

/-- The steps of all requests. A lead is published at most once, and dropped once. -/
inductive FlightStep : InflightIndexes → FlightEvent → InflightIndexes → Prop where
  | joinOrLeadIndex (indexes : InflightIndexes) (workspaceId : Str) (watch skipGitignore : Bool) :
      FlightStep indexes (.joinOrLeadIndex workspaceId watch skipGitignore)
        (indexes.joinOrLeadIndex workspaceId watch skipGitignore)
  | publishRemove (indexes : InflightIndexes) (index : Nat) (lead : InflightIndexLead)
      (response : DaemonResponse) (hlead : indexes.leads[index]? = some lead)
      (hstage : lead.stage = .registered) :
      FlightStep indexes (.publishRemove index response)
        (indexes.publishRemove index lead response)
  | publishSend (indexes : InflightIndexes) (index : Nat) (lead : InflightIndexLead)
      (hlead : indexes.leads[index]? = some lead) (hstage : lead.stage = .publishing) :
      FlightStep indexes (.publishSend index) (indexes.publishSend index lead)
  | dropRemove (indexes : InflightIndexes) (index : Nat) (lead : InflightIndexLead)
      (hlead : indexes.leads[index]? = some lead)
      (hstage : lead.stage = .registered ∨ lead.stage = .published) :
      FlightStep indexes (.dropRemove index) (indexes.dropRemove index lead)
  | dropSend (indexes : InflightIndexes) (index : Nat) (lead : InflightIndexLead)
      (hlead : indexes.leads[index]? = some lead) (hstage : lead.stage = .dropping) :
      FlightStep indexes (.dropSend index) (indexes.dropSend index lead)
  | receive (indexes : InflightIndexes) (index : Nat) (follower : IndexFollower)
      (lead : InflightIndexLead) (response : DaemonResponse)
      (hfollower : indexes.followers[index]? = some follower)
      (hlead : indexes.leads[follower.lead]? = some lead) (hwaiting : follower.received = none)
      (hresponse : InflightIndexes.awaitCoalescedIndex lead = some response) :
      FlightStep indexes (.receive index) (indexes.receive index follower response)

end Ivygrep.Native
