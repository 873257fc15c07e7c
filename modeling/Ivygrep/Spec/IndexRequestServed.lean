import Ivygrep.Spec.IndexFlightCorrect
import Ivygrep.Spec.IndexRequestSteps

/-!
# Acknowledged requests have been served

An `Index` request that is answered with `Ack` has been served by a walk noted after it
arrived, in every run in which what vouches for a request is a walk that can.

## Key results

- `indexRequests_served`: the requests that have been answered in every vouched run
- `followed_ack_unserved`: the run in which a walk that has not ended vouches for a request
-/

namespace Ivygrep.Native

namespace IndexRequests

variable {state next : IndexRequests} {index : Nat} {request request' : IndexRequest}
  {event : IndexEvent} {workspaceId : Str}

/-! ## Leaders and followers -/

/-- Every request with this lead has this filter. -/
def LeadFilter (requests : List IndexRequest) (lead : Nat) (skipGitignore : Bool) : Prop :=
  ∀ (position : Nat) (leader : IndexRequest), requests[position]? = some leader →
    leader.lead = some lead → leader.skipGitignore = skipGitignore

/-- How the channels belong to the requests: a lead and its followers have one filter, and
    the response that a lead was published with is its request's own. -/
structure LinksOk (workspaceId : Str) (state : IndexRequests) : Prop where
  channels : state.flights.ChannelsOk
  entries : state.flights.EntriesOk
  leads : ∀ (index number : Nat) (request : IndexRequest),
    state.requests[index]? = some request → request.lead = some number →
      number < state.flights.leads.length
  options : ∀ entry : InflightIndex, state.flights.registry[workspaceId]? = some entry →
    LeadFilter state.requests entry.outcome entry.skipGitignore
  followers : ∀ (index number : Nat) (request : IndexRequest),
    state.requests[index]? = some request → request.stage = .following number →
      ∃ follower : IndexFollower, state.flights.followers[number]? = some follower ∧
        follower.lead < state.flights.leads.length ∧
        LeadFilter state.requests follower.lead request.skipGitignore
  published : ∀ (number : Nat) (lead : InflightIndexLead) (response : DaemonResponse),
    state.flights.leads[number]? = some lead → lead.published = some response →
      ∃ (index : Nat) (leader : IndexRequest), state.requests[index]? = some leader ∧
        leader.lead = some number ∧
        (leader.stage = .published response ∨ leader.stage = .answered response)

/-- A request that has changed in a step has its lead and its filter from before. -/
theorem exists_of_set {requests : List IndexRequest} {position : Nat} {found : IndexRequest}
    (hrequest : requests[index]? = some request) (hlead : request'.lead = request.lead)
    (hskip : request'.skipGitignore = request.skipGitignore)
    (hfound : (requests.set index request')[position]? = some found) :
    ∃ old, requests[position]? = some old ∧ found.lead = old.lead ∧
      found.skipGitignore = old.skipGitignore ∧ (position ≠ index → found = old) ∧
      (position = index → found = request') := by
  by_cases hsame : position = index
  · subst hsame
    rw [List.getElem?_set_self (List.getElem?_eq_some_iff.mp hrequest).1] at hfound
    cases hfound
    exact ⟨request, hrequest, hlead, hskip, fun hne => absurd rfl hne, fun _ => rfl⟩
  · rw [List.getElem?_set_ne (Ne.symm hsame)] at hfound
    exact ⟨found, hfound, rfl, rfl, fun _ => rfl, fun heq => absurd heq hsame⟩

theorem LeadFilter.set {requests : List IndexRequest} {lead : Nat} {skipGitignore : Bool}
    (h : LeadFilter requests lead skipGitignore) (hrequest : requests[index]? = some request)
    (hlead : request'.lead = request.lead)
    (hskip : request'.skipGitignore = request.skipGitignore) :
    LeadFilter (requests.set index request') lead skipGitignore := by
  intro position leader hleader hled
  obtain ⟨old, hold, hsame, hfilter, -⟩ := exists_of_set hrequest hlead hskip hleader
  rw [hfilter]
  exact h position old hold (hsame ▸ hled)

/-- One request goes on, without a change to the channels. -/
theorem LinksOk.of_request (h : state.LinksOk workspaceId)
    (hrequest : state.requests[index]? = some request)
    (hrequests : next.requests = state.requests.set index request')
    (hflights : next.flights = state.flights) (hlead : request'.lead = request.lead)
    (hskip : request'.skipGitignore = request.skipGitignore)
    (hfollowing : ∀ number, request'.stage = .following number →
      ∃ follower : IndexFollower, state.flights.followers[number]? = some follower ∧
        follower.lead < state.flights.leads.length ∧
        LeadFilter state.requests follower.lead request.skipGitignore)
    (hpublished : ∀ response, request.stage = .published response ∨
      request.stage = .answered response →
        request'.stage = .published response ∨ request'.stage = .answered response) :
    next.LinksOk workspaceId := by
  refine ⟨hflights ▸ h.channels, hflights ▸ h.entries, ?_, ?_, ?_, ?_⟩
  · rw [hflights, hrequests]
    intro position number found hfound hnumber
    obtain ⟨old, hold, hsame, -⟩ := exists_of_set hrequest hlead hskip hfound
    exact h.leads position number old hold (hsame ▸ hnumber)
  · rw [hflights, hrequests]
    intro entry hentry
    exact (h.options entry hentry).set hrequest hlead hskip
  · rw [hflights, hrequests]
    intro position number found hfound hstage
    obtain ⟨old, hold, -, hfilter, hother, hown⟩ := exists_of_set hrequest hlead hskip hfound
    by_cases hsame : position = index
    · rw [hown hsame] at hstage
      obtain ⟨follower, hfollower, hlt, hfilters⟩ := hfollowing number hstage
      rw [hown hsame, hskip]
      exact ⟨follower, hfollower, hlt, hfilters.set hrequest hlead hskip⟩
    · rw [hother hsame] at hstage
      obtain ⟨follower, hfollower, hlt, hfilters⟩ := h.followers position number old hold hstage
      exact ⟨follower, hfollower, hlt, hfilter ▸ hfilters.set hrequest hlead hskip⟩
  · rw [hflights, hrequests]
    intro number lead response hlead' hresponse
    obtain ⟨position, leader, hleader, hled, hstage⟩ :=
      h.published number lead response hlead' hresponse
    by_cases hsame : position = index
    · subst hsame
      rw [hrequest] at hleader
      cases hleader
      refine ⟨position, request', ?_, hlead ▸ hled, hpublished response hstage⟩
      rw [List.getElem?_set_self (List.getElem?_eq_some_iff.mp hrequest).1]
    · refine ⟨position, leader, ?_, hled, hstage⟩
      rw [List.getElem?_set_ne (Ne.symm hsame), hleader]

/-- The request has neither published nor followed, before or after. -/
theorem LinksOk.of_unlinked (h : state.LinksOk workspaceId)
    (hrequest : state.requests[index]? = some request)
    (hrequests : next.requests = state.requests.set index request')
    (hflights : next.flights = state.flights) (hlead : request'.lead = request.lead)
    (hskip : request'.skipGitignore = request.skipGitignore)
    (hbefore : ∀ response, request.stage ≠ .published response ∧ request.stage ≠ .answered response)
    (hafter : ∀ number, request'.stage ≠ .following number) : next.LinksOk workspaceId := by
  refine h.of_request hrequest hrequests hflights hlead hskip
    (fun number hstage => absurd hstage (hafter number)) ?_
  intro response hpublished
  cases hpublished with
  | inl hstage => exact absurd hstage (hbefore response).1
  | inr hstage => exact absurd hstage (hbefore response).2

theorem LinksOk.arrive (h : state.LinksOk workspaceId) (watch skipGitignore detached : Bool) :
    (state.arrive watch skipGitignore detached).LinksOk workspaceId := by
  have hfilters : ∀ {lead : Nat} {filter : Bool}, LeadFilter state.requests lead filter →
      LeadFilter (state.arrive watch skipGitignore detached).requests lead filter := by
    intro lead filter hfilter position leader hleader hled
    cases ForStd.getElem?_concat_eq_some hleader with
    | inl hold => exact hfilter position leader hold hled
    | inr hnew =>
      rw [hnew.2] at hled
      cases hled
  refine ⟨h.channels, h.entries, ?_, fun entry hentry => hfilters (h.options entry hentry), ?_, ?_⟩
  · intro position number found hfound hlead
    cases ForStd.getElem?_concat_eq_some hfound with
    | inl hold => exact h.leads position number found hold hlead
    | inr hnew =>
      rw [hnew.2] at hlead
      cases hlead
  · intro position number found hfound hstage
    cases ForStd.getElem?_concat_eq_some hfound with
    | inl hold =>
      obtain ⟨follower, hfollower, hlt, hfilter⟩ := h.followers position number found hold hstage
      exact ⟨follower, hfollower, hlt, hfilters hfilter⟩
    | inr hnew =>
      rw [hnew.2] at hstage
      cases hstage
  · intro number lead response hlead hresponse
    obtain ⟨position, leader, hleader, hled, hstage⟩ :=
      h.published number lead response hlead hresponse
    refine ⟨position, leader, ?_, hled, hstage⟩
    show (state.requests ++ [_])[position]? = some leader
    rw [List.getElem?_append_left (List.getElem?_eq_some_iff.mp hleader).1, hleader]

/-! ## Steps of the channels -/

/-- What a step of the channels alone leaves as it is. -/
structure ChannelStep (flights next : InflightIndexes) : Prop where
  registry : ∀ (workspaceId : Str) (entry : InflightIndex),
    next.registry[workspaceId]? = some entry → flights.registry[workspaceId]? = some entry
  length : next.leads.length = flights.leads.length
  followers : ∀ (number : Nat) (follower : IndexFollower),
    flights.followers[number]? = some follower →
      ∃ follower' : IndexFollower, next.followers[number]? = some follower' ∧
        follower'.lead = follower.lead
  published : ∀ (number : Nat) (lead : InflightIndexLead), next.leads[number]? = some lead →
    ∃ lead' : InflightIndexLead, flights.leads[number]? = some lead' ∧
      lead'.published = lead.published

/-- A lead goes on, and its entry may go. -/
theorem ChannelStep.of_lead {flights : InflightIndexes} {registry : BTreeMap Str InflightIndex}
    {number : Nat} {lead lead' : InflightIndexLead}
    (hregistry : ∀ (workspaceId : Str) (entry : InflightIndex),
      registry[workspaceId]? = some entry → flights.registry[workspaceId]? = some entry)
    (hlead : flights.leads[number]? = some lead) (hpublished : lead'.published = lead.published) :
    ChannelStep flights ⟨registry, flights.leads.set number lead', flights.followers⟩ := by
  refine ⟨hregistry, List.length_set, fun _ follower hfollower => ⟨follower, hfollower, rfl⟩, ?_⟩
  intro other found hfound
  have hfound' : (flights.leads.set number lead')[other]? = some found := hfound
  by_cases hsame : number = other
  · subst hsame
    rw [List.getElem?_set_self (List.getElem?_eq_some_iff.mp hlead).1] at hfound'
    cases hfound'
    exact ⟨lead, hlead, hpublished.symm⟩
  · rw [List.getElem?_set_ne hsame] at hfound'
    exact ⟨found, hfound', rfl⟩

theorem erase_le {flights : InflightIndexes} {erased : Str} (workspaceId : Str)
    (entry : InflightIndex) (h : (flights.registry.erase erased)[workspaceId]? = some entry) :
    flights.registry[workspaceId]? = some entry := by
  rw [getElem?_erase_key] at h
  split at h
  · cases h
  · exact h

theorem channelStep_of_internal {flights next : InflightIndexes} {event : FlightEvent}
    (hinternal : event.Internal) (hstep : FlightStep flights event next) :
    ChannelStep flights next := by
  cases hstep with
  | joinOrLeadIndex workspaceId watch skipGitignore => exact hinternal.elim
  | publishRemove number lead response hlead hstage => exact hinternal.elim
  | publishSend number lead hlead hstage => exact .of_lead (fun _ _ h => h) hlead rfl
  | dropRemove number lead hlead hstage => exact .of_lead erase_le hlead rfl
  | dropSend number lead hlead hstage => exact .of_lead (fun _ _ h => h) hlead rfl
  | receive number follower lead response hfollower hlead hwaiting hresponse =>
    refine ⟨fun _ _ h => h, rfl, ?_, fun _ lead hlead => ⟨lead, hlead, rfl⟩⟩
    intro other found hfound
    show ∃ follower' : IndexFollower, (flights.followers.set number _)[other]? = _ ∧ _
    by_cases hsame : number = other
    · subst hsame
      rw [hfollower] at hfound
      cases hfound
      refine ⟨{ follower with received := some response }, ?_, rfl⟩
      rw [List.getElem?_set_self (List.getElem?_eq_some_iff.mp hfollower).1]
    · exact ⟨found, by rw [List.getElem?_set_ne hsame, hfound], rfl⟩

theorem LinksOk.flight (h : state.LinksOk workspaceId) {flight : FlightEvent}
    {flights : InflightIndexes} (hinternal : flight.Internal)
    (hflight : FlightStep state.flights flight flights) :
    ({ state with flights := flights } : IndexRequests).LinksOk workspaceId := by
  have hchannel := channelStep_of_internal hinternal hflight
  refine ⟨h.channels.step h.entries hflight, h.entries.step hflight, ?_,
    fun entry hentry => h.options entry (hchannel.registry workspaceId entry hentry), ?_, ?_⟩
  · intro position number found hfound hlead
    exact hchannel.length ▸ h.leads position number found hfound hlead
  · intro position number found hfound hstage
    obtain ⟨follower, hfollower, hlt, hfilter⟩ := h.followers position number found hfound hstage
    obtain ⟨follower', hfollower', hsame⟩ := hchannel.followers number follower hfollower
    refine ⟨follower', hfollower', ?_, ?_⟩
    · rw [hsame]
      exact hchannel.length ▸ hlt
    · rw [hsame]
      exact hfilter
  · intro number lead response hlead hresponse
    obtain ⟨lead', hlead', hsame⟩ := hchannel.published number lead hlead
    exact h.published number lead' response hlead' (hsame.trans hresponse)

theorem LinksOk.publish (h : state.LinksOk workspaceId)
    (hrequest : state.requests[index]? = some request) {number : Nat} {lead : InflightIndexLead}
    {response : DaemonResponse} (hstage : request.stage = .finished response)
    (hlead : request.lead = some number) (hregistered : state.flights.leads[number]? = some lead)
    (hlive : lead.stage = .registered) :
    ({ state.setStage index request (.published response) with
      flights := state.flights.publishRemove number lead response } :
      IndexRequests).LinksOk workspaceId := by
  have hstep := FlightStep.publishRemove state.flights number lead response hregistered hlive
  have hlinks : (state.setStage index request (.published response)).LinksOk workspaceId := by
    refine h.of_unlinked hrequest rfl rfl rfl rfl ?_ ?_
    · intro other
      rw [hstage]
      exact ⟨RequestStage.noConfusion, RequestStage.noConfusion⟩
    · intro other
      exact RequestStage.noConfusion
  have hlength : (state.flights.publishRemove number lead response).leads.length =
      state.flights.leads.length := List.length_set
  refine ⟨h.channels.step h.entries hstep, h.entries.step hstep, ?_,
    fun entry hentry => hlinks.options entry (erase_le workspaceId entry hentry), ?_, ?_⟩
  · intro position other found hfound hfoundLead
    exact hlength ▸ hlinks.leads position other found hfound hfoundLead
  · intro position other found hfound hfollowing
    obtain ⟨follower, hfollower, hlt, hfilter⟩ :=
      hlinks.followers position other found hfound hfollowing
    exact ⟨follower, hfollower, hlength ▸ hlt, hfilter⟩
  · intro other found found' hfound hpublished
    have hfound' : (state.flights.leads.set number
        { lead with published := some response, stage := .publishing })[other]? = some found :=
      hfound
    by_cases hsame : number = other
    · subst hsame
      rw [List.getElem?_set_self (List.getElem?_eq_some_iff.mp hregistered).1] at hfound'
      cases hfound'
      cases hpublished
      refine ⟨index, { request with stage := .published response }, ?_, hlead, .inl rfl⟩
      show (state.requests.set index _)[index]? = _
      rw [List.getElem?_set_self (List.getElem?_eq_some_iff.mp hrequest).1]
    · rw [List.getElem?_set_ne hsame] at hfound'
      exact hlinks.published other found found' hfound' hpublished

/-- A request that leads has a lead of its own. -/
theorem LinksOk.lead (h : state.LinksOk workspaceId)
    (hrequest : state.requests[index]? = some request) (hstage : request.stage = .arrived)
    (hnone : state.flights.registry[workspaceId]? = none) :
    (state.joinOrLeadIndex index request workspaceId).LinksOk workspaceId := by
  have hstep := FlightStep.joinOrLeadIndex state.flights workspaceId request.watch
    request.skipGitignore
  have hflights : state.flights.joinOrLeadIndex workspaceId request.watch request.skipGitignore =
      { state.flights with
        registry := state.flights.registry.insert workspaceId
          ⟨request.watch, request.skipGitignore, state.flights.leads.length⟩
        leads := state.flights.leads ++ [⟨workspaceId, none, none, .registered⟩] } := by
    unfold InflightIndexes.joinOrLeadIndex
    rw [hnone]
  have hslot : state.slot request workspaceId =
      { request with lead := some state.flights.leads.length, stage := .joined } := by
    unfold slot
    rw [hnone]
  have hindex := (List.getElem?_eq_some_iff.mp hrequest).1
  -- Every other request has the lead and the stage that it had.
  have hfound : ∀ {position : Nat} {found : IndexRequest},
      (state.joinOrLeadIndex index request workspaceId).requests[position]? = some found →
        found = { request with lead := some state.flights.leads.length, stage := .joined } ∨
          state.requests[position]? = some found := by
    intro position found hfound
    have hfound' : (state.requests.set index (state.slot request workspaceId))[position]? =
        some found := hfound
    by_cases hsame : index = position
    · subst hsame
      rw [List.getElem?_set_self hindex, hslot] at hfound'
      cases hfound'
      exact .inl rfl
    · rw [List.getElem?_set_ne hsame] at hfound'
      exact .inr hfound'
  have hfilters : ∀ {lead : Nat} {filter : Bool}, lead < state.flights.leads.length →
      LeadFilter state.requests lead filter →
        LeadFilter (state.joinOrLeadIndex index request workspaceId).requests lead filter := by
    intro lead filter hlt hfilter position leader hleader hled
    cases hfound hleader with
    | inl hnew =>
      rw [hnew] at hled
      cases hled
      exact absurd hlt (Nat.lt_irrefl _)
    | inr hold => exact hfilter position leader hold hled
  refine ⟨h.channels.step h.entries hstep, h.entries.step hstep, ?_, ?_, ?_, ?_⟩
  · intro position number found hposition hlead
    show number < (state.flights.joinOrLeadIndex _ _ _).leads.length
    rw [hflights]
    show number < (state.flights.leads ++ [_]).length
    rw [List.length_append, List.length_singleton]
    cases hfound hposition with
    | inl hnew =>
      rw [hnew] at hlead
      cases hlead
      exact Nat.lt_succ_self _
    | inr hold => exact Nat.lt_succ_of_lt (h.leads position number found hold hlead)
  · intro entry hentry
    have hentry' : (state.flights.joinOrLeadIndex workspaceId request.watch
        request.skipGitignore).registry[workspaceId]? = some entry := hentry
    rw [hflights] at hentry'
    simp only [Std.ExtTreeMap.getElem?_insert_self, Option.some.injEq] at hentry'
    rw [← hentry']
    intro position leader hleader hled
    cases hfound hleader with
    | inl hnew => rw [hnew]
    | inr hold =>
      have hlt := h.leads position _ leader hold hled
      exact absurd hlt (Nat.lt_irrefl _)
  · intro position number found hposition hfollowing
    cases hfound hposition with
    | inl hnew =>
      rw [hnew] at hfollowing
      cases hfollowing
    | inr hold =>
      obtain ⟨follower, hfollower, hlt, hfilter⟩ := h.followers position number found hold hfollowing
      refine ⟨follower, ?_, ?_, hfilters hlt hfilter⟩
      · show (state.flights.joinOrLeadIndex _ _ _).followers[number]? = _
        rw [hflights]
        exact hfollower
      · show _ < (state.flights.joinOrLeadIndex _ _ _).leads.length
        rw [hflights]
        show _ < (state.flights.leads ++ [_]).length
        rw [List.length_append]
        exact Nat.lt_add_right _ hlt
  · intro number lead response hlead hpublished
    have hlead' : (state.flights.joinOrLeadIndex workspaceId request.watch
        request.skipGitignore).leads[number]? = some lead := hlead
    rw [hflights] at hlead'
    cases ForStd.getElem?_concat_eq_some hlead' with
    | inl hold =>
      obtain ⟨position, leader, hleader, hled, hstage'⟩ :=
        h.published number lead response hold hpublished
      refine ⟨position, leader, ?_, hled, hstage'⟩
      have hne : index ≠ position := by
        intro hsame
        rw [← hsame, hrequest] at hleader
        cases hleader
        rw [hstage] at hstage'
        cases hstage' with
        | inl heq => cases heq
        | inr heq => cases heq
      show (state.requests.set index _)[position]? = some leader
      rw [List.getElem?_set_ne hne, hleader]
    | inr hnew =>
      rw [hnew.2] at hpublished
      cases hpublished

theorem LinksOk.addFollower (h : state.LinksOk workspaceId) {follower : IndexFollower}
    (hchannels : ({ state.flights with
      followers := state.flights.followers ++ [follower] } : InflightIndexes).ChannelsOk) :
    ({ state with flights := { state.flights with
      followers := state.flights.followers ++ [follower] } } : IndexRequests).LinksOk
      workspaceId := by
  refine ⟨hchannels, h.entries, h.leads, h.options, ?_, h.published⟩
  intro position number found hfound hstage
  obtain ⟨old, hold, hrest⟩ := h.followers position number found hfound hstage
  refine ⟨old, ?_, hrest⟩
  show (state.flights.followers ++ [follower])[number]? = some old
  rw [List.getElem?_append_left (List.getElem?_eq_some_iff.mp hold).1, hold]

/-- A request that joins leads, follows the lead of the entry, or goes its own way. -/
theorem LinksOk.joinOrLeadIndex (h : state.LinksOk workspaceId)
    (hrequest : state.requests[index]? = some request) (hstage : request.stage = .arrived) :
    (state.joinOrLeadIndex index request workspaceId).LinksOk workspaceId := by
  cases hentry : state.flights.registry[workspaceId]? with
  | none => exact h.lead hrequest hstage hentry
  | some existing =>
    have hbefore : ∀ response, request.stage ≠ .published response ∧
        request.stage ≠ .answered response := by
      intro response
      rw [hstage]
      exact ⟨RequestStage.noConfusion, RequestStage.noConfusion⟩
    have hchannels := h.channels.step h.entries
      (.joinOrLeadIndex state.flights workspaceId request.watch request.skipGitignore)
    have hflights : state.flights.joinOrLeadIndex workspaceId request.watch
        request.skipGitignore =
        if existing.watch == request.watch && existing.skipGitignore == request.skipGitignore then
          { state.flights with
            followers := state.flights.followers ++ [⟨existing.outcome, none⟩] }
        else state.flights := by
      unfold InflightIndexes.joinOrLeadIndex
      rw [hentry]
    have hslot : state.slot request workspaceId =
        if request.detached then { request with stage := .indexStarted }
        else if existing.watch == request.watch &&
            existing.skipGitignore == request.skipGitignore then
          { request with stage := .following state.flights.followers.length }
        else { request with stage := .joined } := by
      unfold slot
      rw [hentry]
    have hrequests : ∀ {request' : IndexRequest}, state.slot request workspaceId = request' →
        (state.joinOrLeadIndex index request workspaceId).requests =
          state.requests.set index request' := by
      intro request' hslot
      rw [← hslot]
      rfl
    by_cases hsame : (existing.watch == request.watch &&
        existing.skipGitignore == request.skipGitignore) = true
    · rw [if_pos hsame] at hflights hslot
      have hadded := h.addFollower (hflights ▸ hchannels)
      by_cases hdetached : request.detached = true
      · rw [if_pos hdetached] at hslot
        exact hadded.of_unlinked hrequest (hrequests hslot) hflights
          rfl rfl hbefore fun _ => RequestStage.noConfusion
      · rw [if_neg hdetached] at hslot
        refine hadded.of_request hrequest (hrequests hslot) hflights
          rfl rfl ?_ ?_
        · intro number hnumber
          cases hnumber
          obtain ⟨lead, hlead, -⟩ := h.entries workspaceId existing hentry
          refine ⟨⟨existing.outcome, none⟩, List.getElem?_concat_length,
            (List.getElem?_eq_some_iff.mp hlead).1, ?_⟩
          have hskip : existing.skipGitignore = request.skipGitignore :=
            eq_of_beq (Bool.and_eq_true_iff.mp hsame).2
          exact hskip ▸ h.options existing hentry
        · intro response hpublished
          cases hpublished with
          | inl heq => exact absurd heq (hbefore response).1
          | inr heq => exact absurd heq (hbefore response).2
    · rw [if_neg hsame] at hflights hslot
      by_cases hdetached : request.detached = true
      · rw [if_pos hdetached] at hslot
        exact h.of_unlinked hrequest (hrequests hslot) hflights
          rfl rfl hbefore fun _ => RequestStage.noConfusion
      · rw [if_neg hdetached] at hslot
        exact h.of_unlinked hrequest (hrequests hslot) hflights
          rfl rfl hbefore fun _ => RequestStage.noConfusion

/-! ## Followers -/

/-- An `Ack` in the channel of a lead is the one that the lead was published with. -/
theorem published_of_ack {lead : InflightIndexLead} (h : InflightIndexes.LeadOk lead)
    {message : Str} (houtcome : lead.outcome = some (.ack message)) :
    lead.published = some (.ack message) := by
  unfold InflightIndexes.LeadOk at h
  cases hstage : lead.stage with
  | registered | publishing =>
    simp only [hstage] at h
    rw [h.2] at houtcome
    cases houtcome
  | published =>
    simp only [hstage] at h
    rw [← h.2, houtcome]
  | dropping =>
    simp only [hstage] at h
    rw [← h, houtcome]
  | dropped =>
    simp only [hstage] at h
    rw [houtcome] at h
    cases hpublished : lead.published with
    | none =>
      rw [hpublished] at h
      cases h
    | some response =>
      rw [hpublished] at h
      exact h.symm

/-- The response to a run of its own rests on a walk that has served the request. -/
theorem StageOk.served (h : state.StageOk index request) {response : DaemonResponse}
    (hstage : request.stage = .finished response ∨ request.stage = .published response ∨
      request.stage = .answered response) (message : Str) (hack : response = .ack message) :
    ∃ number, request.walk = some number ∧ state.ServedBy request number := by
  unfold StageOk at h
  cases hstage with
  | inl hfinished =>
    simp only [hfinished] at h
    exact h message hack
  | inr hdone =>
    cases hdone with
    | inl hpublished =>
      simp only [hpublished] at h
      exact h message hack
    | inr hanswered =>
      simp only [hanswered] at h
      exact h message hack

/-- A follower that reuses a vouched `Ack` has been served: by the walk of its leader, or by
    the one that was noted last. -/
theorem served_of_receives (hwalks : state.WalksOk) (hlinks : state.LinksOk workspaceId)
    (hrequest : state.requests[index]? = some request) {follower : IndexFollower} {message : Str}
    (hreceives : state.Receives request follower (.ack message))
    (hafter : state.fullIndexRunStartedAfter request.arrivedAt = true)
    (hvouched : state.Vouched (.follow index)) : ∃ number, state.ServedBy request number := by
  have hok := hwalks.requests index request hrequest
  cases hvouched request follower message hrequest hreceives hafter with
  | inl hlast =>
    obtain ⟨walk, hwalk, hsuccess, hfilter⟩ := hlast
    obtain ⟨walk', hwalk', hlt⟩ := hwalks.lastWalk hafter
    rw [hwalk] at hwalk'
    cases hwalk'
    exact ⟨_, walk, hwalk, hok.walksBefore_le hwalk hlt, Nat.le_of_lt hlt, hsuccess, hfilter⟩
  | inr hleader =>
    obtain ⟨number, hstage, hfollower, hreceived⟩ := hreceives
    -- The response has come through the channel from the request that leads.
    obtain ⟨lead, hlead, hchannel⟩ :=
      hlinks.channels.followers follower (List.mem_of_getElem? hfollower)
    have hpublished := published_of_ack (hlinks.channels.leads lead (List.mem_of_getElem? hlead))
      (hchannel _ hreceived)
    obtain ⟨position, leader, hposition, hled, hdone⟩ :=
      hlinks.published follower.lead lead _ hlead hpublished
    obtain ⟨walked, hwalked, hserved⟩ :=
      (hwalks.requests position leader hposition).stage.served (.inr hdone) message rfl
    obtain ⟨walk, hwalk, -, -, hsuccess, hfilter⟩ := hserved
    obtain ⟨found, hfound, -, hfilters⟩ := hlinks.followers index number request hrequest hstage
    rw [hfollower] at hfound
    cases hfound
    have hcounted := hleader position leader walked hposition hled hwalked
    exact ⟨walked, walk, hwalk, hcounted, hok.after walked walk hwalk hcounted, hsuccess,
      hfilters position leader hposition hled ▸ hfilter⟩

/-! ## Steps -/

theorem WalksOk.step (h : state.WalksOk) (hlinks : state.LinksOk workspaceId)
    (hvouched : state.Vouched event) (hstep : IndexStep workspaceId state event next) :
    next.WalksOk := by
  cases hstep with
  | tick =>
    refine h.of_keeps rfl ?_ h.noted (h.lease.congr rfl rfl) ?_
    · intro number walk hwalk
      exact Nat.le_succ_of_le (h.clock number walk hwalk)
    · intro other
      exact .of_same (Nat.le_succ _) rfl rfl (FilterIs.congr rfl)
  | arrive watch skipGitignore detached => exact h.arrive watch skipGitignore detached
  | joinOrLeadIndex index request hrequest hstage => exact h.joinOrLeadIndex hrequest
  | flight event flights hinternal hflight =>
    exact h.of_keeps rfl h.clock h.noted (h.lease.congr rfl rfl) fun other =>
      .of_same (Nat.le_refl _) rfl rfl (FilterIs.congr rfl)
  | follow index request number follower response hrequest hstage hfollower hreceived =>
    apply h.follow hrequest
    intro message hack hafter
    subst hack
    exact served_of_receives h hlinks hrequest ⟨number, hstage, hfollower, hreceived⟩ hafter
      hvouched
  | register index request hrequest hstage hmetadata => exact h.setStage hrequest trivial
  | writeRegistration index request hrequest hstage => exact h.writeRegistration hrequest hvouched
  | run index request hrequest hstage => exact h.run hrequest
  | acquireIndexLease index request generationOnArrival hrequest hstage hfree =>
    exact h.acquireIndexLease hrequest generationOnArrival hfree
  | resolveAgain index request generationOnArrival hrequest hstage =>
    exact h.resolveAgain hrequest hstage
  | refuseLease index request message generationOnArrival hrequest hstage =>
    apply h.setStage hrequest
    intro text hack
    cases hack
  | refuseCheckout index request message generationOnArrival hrequest hstage =>
    exact h.refuseCheckout hrequest hstage message
  | prepare index request generationOnArrival replacement obsoleteOverlay hrequest hstage =>
    exact h.prepare hrequest hstage replacement obsoleteOverlay
  | skip index request watcherError hrequest hstage =>
    exact h.skip hrequest hstage watcherError hvouched
  | noteStart index request alreadyCurrent hrequest hstage => exact h.noteStart hrequest hstage
  | readFilter index request hrequest hstage => exact h.readFilter hrequest hstage
  | commit unix hindexing => exact h.commit unix
  | finish index request summary watcherError hrequest hstage =>
    exact h.release hrequest (.inr hstage) true _ fun _ _ => ⟨rfl, hstage⟩
  | failBefore index request message hrequest hstage => exact h.failBefore hrequest hstage message
  | fail index request message hrequest hstage =>
    refine h.release hrequest hstage false _ ?_
    intro text hack
    cases hack
  | publish index request number lead response hrequest hstage hlead hregistered hlive =>
    have hok := h.requests index request hrequest
    exact h.of_request rfl rfl rfl rfl rfl (FilterIs.congr rfl)
      (hok.advance (Nat.le_refl _) (.refl _) rfl rfl (hok.stage.served (.inl hstage)))
  | answerLead index request number lead response hrequest hstage hlead hpublished hsent =>
    exact h.setStage hrequest
      ((h.requests index request hrequest).stage.served (.inr (.inl hstage)))
  | answer index request response hrequest hstage hlead =>
    exact h.setStage hrequest ((h.requests index request hrequest).stage.served (.inl hstage))
  | watcherAcquire hfree => exact h.watcherAcquire hfree
  | watcherNoteStart hlease => exact h.watcherNoteStart hlease
  | watcherReadFilter hlease => exact h.watcherReadFilter hlease
  | watcherFinish success hlease => exact h.watcherFinish hlease success
  | watcherRelease success hlease => exact h.watcherRelease hlease
  | forgetRunStart =>
    refine h.of_keeps rfl h.clock ?_ (h.lease.congr rfl rfl) fun other =>
      .of_same (Nat.le_refl _) rfl rfl (FilterIs.congr rfl)
    intro started hstarted
    cases hstarted

theorem LinksOk.congr (h : state.LinksOk workspaceId) (hrequests : next.requests = state.requests)
    (hflights : next.flights = state.flights) : next.LinksOk workspaceId := by
  obtain ⟨hchannels, hentries, hleads, hoptions, hfollowers, hpublished⟩ := h
  rw [← hflights] at hchannels hentries hleads hoptions hfollowers hpublished
  rw [← hrequests] at hleads hoptions hfollowers hpublished
  exact ⟨hchannels, hentries, hleads, hoptions, hfollowers, hpublished⟩

/-- A request goes to a stage of its own run. -/
theorem LinksOk.of_stages (h : state.LinksOk workspaceId)
    (hrequest : state.requests[index]? = some request)
    (hrequests : next.requests = state.requests.set index request')
    (hflights : next.flights = state.flights) (hlead : request'.lead = request.lead)
    (hskip : request'.skipGitignore = request.skipGitignore) {before after : RequestStage}
    (hbefore : request.stage = before) (hafter : request'.stage = after)
    (hunlinked : (∀ response, before ≠ .published response ∧ before ≠ .answered response) ∧
      ∀ number, after ≠ .following number) : next.LinksOk workspaceId :=
  h.of_unlinked hrequest hrequests hflights hlead hskip (fun response => hbefore ▸ hunlinked.1 response)
    fun number => hafter ▸ hunlinked.2 number

theorem LinksOk.follow (h : state.LinksOk workspaceId)
    (hrequest : state.requests[index]? = some request) {number : Nat}
    (hstage : request.stage = .following number) (response : DaemonResponse) :
    (state.follow index request response).LinksOk workspaceId := by
  unfold IndexRequests.follow
  cases response with
  | error message => exact h.of_stages hrequest rfl rfl rfl rfl hstage rfl (by simp)
  | ack message =>
    simp only
    split
    · exact h.of_stages hrequest rfl rfl rfl rfl hstage rfl (by simp)
    · exact h.of_stages hrequest rfl rfl rfl rfl hstage rfl (by simp)

theorem LinksOk.step (h : state.LinksOk workspaceId)
    (hstep : IndexStep workspaceId state event next) : next.LinksOk workspaceId := by
  cases hstep with
  | tick => exact h.congr rfl rfl
  | arrive watch skipGitignore detached => exact h.arrive watch skipGitignore detached
  | joinOrLeadIndex index request hrequest hstage => exact h.joinOrLeadIndex hrequest hstage
  | flight event flights hinternal hflight => exact h.flight hinternal hflight
  | follow index request number follower response hrequest hstage hfollower hreceived =>
    exact h.follow hrequest hstage response
  | register index request hrequest hstage hmetadata =>
    exact h.of_stages hrequest rfl rfl rfl rfl hstage rfl (by simp)
  | writeRegistration index request hrequest hstage =>
    have hrequests : (state.writeRegistration index request).requests =
        state.requests.set index { request with stage := .registered } := rfl
    exact h.of_stages hrequest hrequests rfl rfl rfl hstage rfl (by simp)
  | run index request hrequest hstage =>
    have hbefore : ∀ response, request.stage ≠ .published response ∧
        request.stage ≠ .answered response := by
      intro response
      constructor
      · intro heq
        simp [heq] at hstage
      · intro heq
        simp [heq] at hstage
    unfold IndexRequests.run
    split
    · exact h.of_unlinked hrequest rfl rfl rfl rfl hbefore fun _ => RequestStage.noConfusion
    · exact h.of_unlinked hrequest rfl rfl rfl rfl hbefore fun _ => RequestStage.noConfusion
  | acquireIndexLease index request generationOnArrival hrequest hstage hfree =>
    exact h.of_stages hrequest rfl rfl rfl rfl hstage rfl (by simp)
  | resolveAgain index request generationOnArrival hrequest hstage =>
    exact h.of_stages hrequest rfl rfl rfl rfl hstage rfl (by simp)
  | refuseLease index request message generationOnArrival hrequest hstage =>
    exact h.of_stages hrequest rfl rfl rfl rfl hstage rfl (by simp)
  | refuseCheckout index request message generationOnArrival hrequest hstage =>
    exact h.of_stages hrequest rfl rfl rfl rfl hstage rfl (by simp)
  | prepare index request generationOnArrival replacement obsoleteOverlay hrequest hstage =>
    exact h.of_stages hrequest rfl rfl rfl rfl hstage rfl (by simp)
  | skip index request watcherError hrequest hstage =>
    exact h.of_stages hrequest rfl rfl rfl rfl hstage rfl (by simp)
  | noteStart index request alreadyCurrent hrequest hstage =>
    exact h.of_stages hrequest rfl rfl rfl rfl hstage rfl (by simp)
  | readFilter index request hrequest hstage =>
    exact h.of_stages hrequest rfl rfl rfl rfl hstage rfl (by simp)
  | commit unix hindexing => exact h.congr rfl rfl
  | finish index request summary watcherError hrequest hstage =>
    exact h.of_stages hrequest rfl rfl rfl rfl hstage rfl (by simp)
  | failBefore index request message hrequest hstage =>
    cases hstage with
    | inl hleased =>
      obtain ⟨generationOnArrival, hleased⟩ := hleased
      exact h.of_stages hrequest rfl rfl rfl rfl hleased rfl (by simp)
    | inr hprepared =>
      obtain ⟨alreadyCurrent, hprepared⟩ := hprepared
      exact h.of_stages hrequest rfl rfl rfl rfl hprepared rfl (by simp)
  | fail index request message hrequest hstage =>
    cases hstage with
    | inl hnoted => exact h.of_stages hrequest rfl rfl rfl rfl hnoted rfl (by simp)
    | inr hwalking => exact h.of_stages hrequest rfl rfl rfl rfl hwalking rfl (by simp)
  | publish index request number lead response hrequest hstage hlead hregistered hlive =>
    exact h.publish hrequest hstage hlead hregistered hlive
  | answerLead index request number lead response hrequest hstage hlead hpublished hsent =>
    refine h.of_request hrequest rfl rfl rfl rfl
      (fun number hfollowing => RequestStage.noConfusion hfollowing) ?_
    intro other hother
    rw [hstage] at hother
    cases hother with
    | inl heq =>
      cases heq
      exact .inr rfl
    | inr heq => cases heq
  | answer index request response hrequest hstage hlead =>
    exact h.of_stages hrequest rfl rfl rfl rfl hstage rfl (by simp)
  | watcherAcquire hfree => exact h.congr rfl rfl
  | watcherNoteStart hlease => exact h.congr rfl rfl
  | watcherReadFilter hlease => exact h.congr rfl rfl
  | watcherFinish success hlease => exact h.congr rfl rfl
  | watcherRelease success hlease => exact h.congr rfl rfl
  | forgetRunStart => exact h.congr rfl rfl

/-! ## Runs -/

/-- No request has arrived, and no walk has been noted. -/
def start (now : Nat) (metadata : Option WorkspaceMetadata) : IndexRequests where
  now := now
  walks := []
  fullIndexRunStart := none
  metadata := metadata
  lease := none
  flights := .default
  requests := []

end IndexRequests

/-- The states that the allowed events can reach. -/
inductive IndexRun (workspaceId : Str) (allowed : IndexRequests → IndexEvent → Prop) :
    IndexRequests → Prop where
  | start (now : Nat) (metadata : Option WorkspaceMetadata) :
      IndexRun workspaceId allowed (.start now metadata)
  | step {state next : IndexRequests} {event : IndexEvent}
      (hrun : IndexRun workspaceId allowed state) (hallowed : allowed state event)
      (hstep : IndexStep workspaceId state event next) : IndexRun workspaceId allowed next

/-- The response that an `Index` request has been answered with. -/
def IndexRequest.answer (request : IndexRequest) : Option DaemonResponse :=
  match request.stage with
  | .answered response | .reused response => if request.detached then none else some response
  | _ => none

theorem IndexRequests.start_ok (workspaceId : Str) (now : Nat)
    (metadata : Option WorkspaceMetadata) :
    (start now metadata).WalksOk ∧ (start now metadata).LinksOk workspaceId := by
  refine ⟨⟨?_, ?_, ?_, ?_⟩, ⟨⟨fun _ hlead => absurd hlead List.not_mem_nil,
    fun _ hfollower => absurd hfollower List.not_mem_nil⟩, ?_, ?_, ?_, ?_, ?_⟩⟩
  · simp [start]
  · simp [start]
  · simp [start, LeaseOk, EndedBelow]
  · simp [start]
  · simp [InflightIndexes.EntriesOk, start, InflightIndexes.default]
  · simp [start]
  · simp [start, InflightIndexes.default]
  · simp [start]
  · simp [start, InflightIndexes.default]

theorem IndexRun.invariant {workspaceId : Str} {state : IndexRequests}
    (h : IndexRun workspaceId IndexRequests.Vouched state) :
    state.WalksOk ∧ state.LinksOk workspaceId := by
  induction h with
  | start now metadata => exact IndexRequests.start_ok workspaceId now metadata
  | step hrun hvouched hstep ih => exact ⟨ih.1.step ih.2 hvouched hstep, ih.2.step hstep⟩

/-- In every vouched run, an `Index` request that has been answered with `Ack` has been
    served: a walk noted after it arrived has succeeded with its filter. -/
theorem indexRequests_served {workspaceId : Str} {state : IndexRequests}
    (h : IndexRun workspaceId IndexRequests.Vouched state) (index : Nat) (request : IndexRequest)
    (hrequest : state.requests[index]? = some request) (message : Str)
    (hanswer : request.answer = some (.ack message)) :
    ∃ (number : Nat) (walk : IndexWalk), state.walks[number]? = some walk ∧
      request.walksBefore ≤ number ∧ request.arrivedAt ≤ walk.started ∧
      walk.outcome = some true ∧ walk.skipGitignore = some request.skipGitignore := by
  have hok := (h.invariant.1.requests index request hrequest).stage
  unfold IndexRequest.answer at hanswer
  split at hanswer
  · rename_i response hstage
    split at hanswer
    · cases hanswer
    · cases hanswer
      obtain ⟨number, -, walk, hserved⟩ := hok.served (.inr (.inr hstage)) message rfl
      exact ⟨number, walk, hserved⟩
  · rename_i response hstage
    split at hanswer
    · cases hanswer
    · cases hanswer
      unfold IndexRequests.StageOk at hok
      simp only [hstage] at hok
      obtain ⟨number, walk, hserved⟩ := hok message rfl
      exact ⟨number, walk, hserved⟩
  · cases hanswer

/-! ## Sample runs -/

private def indexedBefore : WorkspaceMetadata := ⟨some 1, true, false, 1⟩

private def sampleRequest (arrivedAt walksBefore : Nat) (lead walk : Option Nat)
    (stage : RequestStage) : IndexRequest :=
  ⟨true, false, false, arrivedAt, walksBefore, lead, walk, stage⟩

private def sampleAck : DaemonResponse :=
  IndexRequests.blockingResponse true (.ok (some ⟨1, 2⟩, none))

private theorem IndexRun.vouched {state next : IndexRequests} {event : IndexEvent}
    (hrun : IndexRun ['w'] IndexRequests.Vouched state) (hstep : IndexStep ['w'] state event next)
    (hvouched : state.Vouched event) : IndexRun ['w'] IndexRequests.Vouched next :=
  hrun.step hvouched hstep

private theorem ledRun : IndexRun ['w'] IndexRequests.Vouched
    ⟨0, [], none, some indexedBefore, none, InflightIndexes.default.joinOrLeadIndex ['w'] true false,
      [sampleRequest 0 0 (some 0) none .joined]⟩ := by
  have hled : IndexRun ['w'] IndexRequests.Vouched _ :=
    ((IndexRun.start 0 (some indexedBefore)).vouched (.arrive _ true false false) trivial).vouched
      (.joinOrLeadIndex _ 0 _ rfl rfl) trivial
  exact hled

private def followedFlights : InflightIndexes :=
  (InflightIndexes.default.joinOrLeadIndex ['w'] true false).joinOrLeadIndex ['w'] true false

/-- The second request has received the response of the first. -/
private def receivedFlights : InflightIndexes :=
  ((followedFlights.publishRemove 0 ⟨['w'], none, none, .registered⟩ sampleAck).publishSend 0
    ⟨['w'], none, some sampleAck, .publishing⟩).receive 0 ⟨0, none⟩ sampleAck

/-- A leader that has walked publishes its response, and the follower receives it. -/
private theorem receivedRun {now walksBefore arrivedAt : Nat} {walks : List IndexWalk}
    {fullIndexRunStart : Option Nat} {lease : Option LeaseHolder}
    (hrun : IndexRun ['w'] IndexRequests.Vouched
      ⟨now, walks, fullIndexRunStart, some indexedBefore, lease, followedFlights,
        [sampleRequest 0 0 (some 0) (some 0) (.finished sampleAck),
          sampleRequest arrivedAt walksBefore none none (.following 0)]⟩) :
    IndexRun ['w'] IndexRequests.Vouched
      ⟨now, walks, fullIndexRunStart, some indexedBefore, lease, receivedFlights,
        [sampleRequest 0 0 (some 0) (some 0) (.published sampleAck),
          sampleRequest arrivedAt walksBefore none none (.following 0)]⟩ := by
  have hpublished := hrun.vouched
    (.publish _ 0 _ 0 ⟨['w'], none, none, .registered⟩ _ rfl rfl rfl rfl rfl) trivial
  have hsent := hpublished.vouched (.flight _ (.publishSend 0) _ trivial
    (.publishSend _ 0 ⟨['w'], none, some sampleAck, .publishing⟩ rfl rfl)) trivial
  have hreceived := hsent.vouched (.flight _ (.receive 0) _ trivial
    (.receive _ 0 ⟨0, none⟩ ⟨['w'], some sampleAck, some sampleAck, .published⟩ sampleAck
      rfl rfl rfl rfl)) trivial
  exact hreceived

/-- A follower that arrived before its leader's walk was noted is answered with its `Ack`. -/
theorem indexRequests_served_sample :
    ∃ state, IndexRun ['w'] IndexRequests.Vouched state ∧
      state.requests[1]? = some (sampleRequest 0 0 none none (.reused sampleAck)) ∧
      ∃ (number : Nat) (walk : IndexWalk), state.walks[number]? = some walk ∧ 0 ≤ number ∧
        0 ≤ walk.started ∧ walk.outcome = some true ∧ walk.skipGitignore = some false := by
  have hfollowed := (ledRun.vouched (.arrive _ true false false) trivial).vouched
    (.joinOrLeadIndex _ 1 _ rfl rfl) trivial
  have hwaiting := (hfollowed.vouched (.run _ 0 _ rfl (.inl rfl)) trivial).vouched (.tick _) trivial
  have hleased := hwaiting.vouched (.acquireIndexLease _ 0 _ _ rfl rfl rfl) trivial
  have hprepared := hleased.vouched (.prepare _ 0 _ _ false false rfl rfl) trivial
  have hnoted := hprepared.vouched (.noteStart _ 0 _ _ rfl rfl) trivial
  have hread := hnoted.vouched (.readFilter _ 0 _ rfl rfl) trivial
  have hfinished : IndexRun ['w'] IndexRequests.Vouched
      ⟨1, [⟨1, some false, some true⟩], some 1, some indexedBefore, none, followedFlights,
        [sampleRequest 0 0 (some 0) (some 0) (.finished sampleAck),
          sampleRequest 0 0 none none (.following 0)]⟩ := by
    have hfinished := hread.vouched (.finish _ 0 _ ⟨1, 2⟩ none rfl rfl) trivial
    exact hfinished
  have hreused := (receivedRun hfinished).vouched
    (.follow _ 1 _ 0 ⟨0, some sampleAck⟩ sampleAck rfl rfl rfl rfl) (by
      intro request follower message hrequest hreceives hafter
      cases hrequest
      exact .inr fun _ _ _ _ _ _ => Nat.zero_le _)
  exact ⟨_, hreused, rfl, indexRequests_served hreused 1 _ rfl _ rfl⟩

theorem IndexRun.of_vouched {workspaceId : Str} {state : IndexRequests}
    (h : IndexRun workspaceId IndexRequests.Vouched state) :
    IndexRun workspaceId (fun _ _ => True) state := by
  induction h with
  | start now metadata => exact .start now metadata
  | step hrun hvouched hstep ih => exact ih.step trivial hstep

/-- A request arrives while the walk of its leader goes on. The watcher notes the start of
    a walk after the leader has released the lease, and before its response is published:
    that walk, which has not ended, vouches for the request. -/
theorem followed_ack_unserved :
    ∃ state, IndexRun ['w'] (fun _ _ => True) state ∧ ∃ request message,
      state.requests[1]? = some request ∧ request.answer = some (.ack message) ∧
      ¬∃ (number : Nat) (walk : IndexWalk), state.walks[number]? = some walk ∧
        request.walksBefore ≤ number ∧ request.arrivedAt ≤ walk.started ∧
        walk.outcome = some true ∧ walk.skipGitignore = some request.skipGitignore := by
  have hwaiting := ledRun.vouched (.run _ 0 _ rfl (.inl rfl)) trivial
  have hleased := hwaiting.vouched (.acquireIndexLease _ 0 _ _ rfl rfl rfl) trivial
  have hprepared := hleased.vouched (.prepare _ 0 _ _ false false rfl rfl) trivial
  have hnoted := hprepared.vouched (.noteStart _ 0 _ _ rfl rfl) trivial
  have hread := (hnoted.vouched (.readFilter _ 0 _ rfl rfl) trivial).vouched (.tick _) trivial
  have hfollowed := (hread.vouched (.arrive _ true false false) trivial).vouched
    (.joinOrLeadIndex _ 1 (sampleRequest 1 1 none none .arrived) rfl rfl) trivial
  have hfinished := hfollowed.vouched (.finish _ 0 _ ⟨1, 2⟩ none rfl rfl) trivial
  have hwatched := ((hfinished.vouched (.tick _) trivial).vouched (.watcherAcquire _ rfl)
    trivial).vouched (.watcherNoteStart _ rfl) trivial
  have hwatching : IndexRun ['w'] IndexRequests.Vouched
      ⟨2, [⟨0, some false, some true⟩, ⟨2, none, none⟩], some 2, some indexedBefore,
        some (.watcher true), followedFlights,
        [sampleRequest 0 0 (some 0) (some 0) (.finished sampleAck),
          sampleRequest 1 1 none none (.following 0)]⟩ := hwatched
  have hreused := (receivedRun hwatching).of_vouched.step trivial
    (.follow _ 1 _ 0 ⟨0, some sampleAck⟩ sampleAck rfl rfl rfl rfl)
  refine ⟨_, hreused, sampleRequest 1 1 none none (.reused sampleAck), _, rfl, rfl, ?_⟩
  intro hserved
  obtain ⟨number, walk, hwalk, hle, -, hsuccess, -⟩ := hserved
  have hle' : 1 ≤ number := hle
  obtain ⟨hlt, hget⟩ := List.getElem?_eq_some_iff.mp hwalk
  have hlt' : number < 2 := hlt
  have hone : number = 1 := by omega
  subst hone
  cases hget
  cases hsuccess

end Ivygrep.Native
