import Ivygrep.Native.IndexFlight
import Ivygrep.Spec.OverlayStore

/-!
# One leader for each workspace

The registry has an entry for a workspace exactly while a lead of it is neither published
nor dropped, if no published lead is dropped after a later one has registered; and a
follower gets what its own leader published.

## Key results

- `inflightIndexes_correct`: the registry, the leads and the followers in every run
- `published_lead_removes_other`: the run in which a drop removes another lead's entry
-/

namespace Ivygrep.Native

namespace InflightIndexes

variable {indexes next : InflightIndexes} {event : FlightEvent}

/-! ## Leads and followers -/

/-- The channel of a lead has what was published, or the abort once it is dropped. -/
def LeadOk (lead : InflightIndexLead) : Prop :=
  match lead.stage with
  | .registered => lead.published = none ∧ lead.outcome = none
  | .publishing => lead.published ≠ none ∧ lead.outcome = none
  | .published => lead.published ≠ none ∧ lead.outcome = lead.published
  | .dropping => lead.outcome = lead.published
  | .dropped => lead.outcome = some (lead.published.getD (.error abortMessage))

/-- Every lead is right, and every follower has what is in the channel of its lead. -/
structure ChannelsOk (indexes : InflightIndexes) : Prop where
  leads : ∀ lead ∈ indexes.leads, LeadOk lead
  followers : ∀ follower ∈ indexes.followers, ∃ lead,
    indexes.leads[follower.lead]? = some lead ∧
      ∀ response, follower.received = some response → lead.outcome = some response

/-- A lead that moves on keeps what is in its channel. -/
theorem ChannelsOk.set {registry : BTreeMap Str InflightIndex} {index : Nat}
    {lead lead' : InflightIndexLead} (h : indexes.ChannelsOk)
    (hlead : indexes.leads[index]? = some lead) (hok : LeadOk lead')
    (hkeep : ∀ response, lead.outcome = some response → lead'.outcome = some response) :
    (⟨registry, indexes.leads.set index lead', indexes.followers⟩ : InflightIndexes).ChannelsOk := by
  refine ⟨?_, ?_⟩
  · intro other hother
    cases List.mem_or_eq_of_mem_set hother with
    | inl hold => exact h.leads other hold
    | inr heq => exact heq ▸ hok
  · intro follower hfollower
    obtain ⟨led, hled, hreceived⟩ := h.followers follower hfollower
    by_cases hsame : follower.lead = index
    · rw [hsame, hlead] at hled
      cases hled
      refine ⟨lead', ?_, fun response hresponse => hkeep response (hreceived response hresponse)⟩
      show (indexes.leads.set index lead')[follower.lead]? = some lead'
      rw [hsame, List.getElem?_set_self (List.getElem?_eq_some_iff.mp hlead).1]
    · refine ⟨led, ?_, hreceived⟩
      show (indexes.leads.set index lead')[follower.lead]? = some led
      rw [List.getElem?_set_ne (Ne.symm hsame), hled]

/-- Every registry entry is that of a lead that is neither published nor dropped. -/
def EntriesOk (indexes : InflightIndexes) : Prop :=
  ∀ workspaceId (entry : InflightIndex), indexes.registry[workspaceId]? = some entry →
    ∃ lead, indexes.leads[entry.outcome]? = some lead ∧ lead.workspaceId = workspaceId ∧
      lead.stage = .registered

theorem ChannelsOk.step (h : indexes.ChannelsOk) (hentries : indexes.EntriesOk)
    (hstep : FlightStep indexes event next) : next.ChannelsOk := by
  cases hstep with
  | joinOrLeadIndex workspaceId watch skipGitignore =>
    unfold InflightIndexes.joinOrLeadIndex
    split
    · rename_i existing hexisting
      split
      · refine ⟨h.leads, ?_⟩
        intro follower hfollower
        cases List.mem_append.mp hfollower with
        | inl hold => exact h.followers follower hold
        | inr hnew =>
          rw [List.mem_singleton.mp hnew]
          obtain ⟨lead, hlead, -⟩ := hentries workspaceId existing hexisting
          refine ⟨lead, hlead, ?_⟩
          intro response hresponse
          cases hresponse
      · exact h
    · refine ⟨?_, ?_⟩
      · intro lead hlead
        cases List.mem_append.mp hlead with
        | inl hold => exact h.leads lead hold
        | inr hnew =>
          rw [List.mem_singleton.mp hnew]
          exact ⟨rfl, rfl⟩
      · intro follower hfollower
        obtain ⟨lead, hlead, hreceived⟩ := h.followers follower hfollower
        refine ⟨lead, ?_, hreceived⟩
        show (indexes.leads ++ _)[follower.lead]? = some lead
        rw [List.getElem?_append_left (List.getElem?_eq_some_iff.mp hlead).1, hlead]
  | publishRemove index lead response hlead hstage =>
    have hok := h.leads lead (List.mem_of_getElem? hlead)
    unfold LeadOk at hok
    rw [hstage] at hok
    apply h.set hlead
    · exact ⟨Option.some_ne_none _, hok.2⟩
    · intro other hother
      exact hother
  | publishSend index lead hlead hstage =>
    have hok := h.leads lead (List.mem_of_getElem? hlead)
    unfold LeadOk at hok
    rw [hstage] at hok
    apply h.set hlead
    · exact ⟨hok.1, rfl⟩
    · intro other hother
      rw [hok.2] at hother
      cases hother
  | dropRemove index lead hlead hstage =>
    have hok := h.leads lead (List.mem_of_getElem? hlead)
    unfold LeadOk at hok
    apply h.set hlead
    · show lead.outcome = lead.published
      cases hstage with
      | inl hregistered =>
        rw [hregistered] at hok
        rw [hok.1, hok.2]
      | inr hpublished =>
        rw [hpublished] at hok
        exact hok.2
    · intro other hother
      exact hother
  | dropSend index lead hlead hstage =>
    have hok := h.leads lead (List.mem_of_getElem? hlead)
    unfold LeadOk at hok
    rw [hstage] at hok
    apply h.set hlead
    · show some (lead.outcome.getD _) = some (lead.published.getD _)
      rw [hok]
    · intro other hother
      show some (lead.outcome.getD _) = some other
      rw [hother, Option.getD_some]
  | receive index follower lead response hfollower hlead hwaiting hresponse =>
    refine ⟨h.leads, ?_⟩
    intro other hother
    cases List.mem_or_eq_of_mem_set hother with
    | inl hold => exact h.followers other hold
    | inr heq =>
      rw [heq]
      refine ⟨lead, hlead, ?_⟩
      intro received hreceived
      cases hreceived
      unfold awaitCoalescedIndex at hresponse
      split at hresponse
      · rename_i hstage
        -- A dropped lead has left something in its channel.
        have hok := h.leads lead (List.mem_of_getElem? hlead)
        unfold LeadOk at hok
        rw [hstage] at hok
        rw [hok] at hresponse ⊢
        exact hresponse
      · exact hresponse

/-! ## The registry -/

/-- A lead that moves on from a stage in which its entry has been removed. -/
theorem EntriesOk.set_of_not_registered {index : Nat} {lead lead' : InflightIndexLead}
    (h : indexes.EntriesOk) (hlead : indexes.leads[index]? = some lead)
    (hstage : lead.stage ≠ .registered) :
    (⟨indexes.registry, indexes.leads.set index lead', indexes.followers⟩ :
      InflightIndexes).EntriesOk := by
  intro workspaceId entry hentry
  obtain ⟨owner, howner, hworkspace, hregistered⟩ := h workspaceId entry hentry
  refine ⟨owner, ?_, hworkspace, hregistered⟩
  have hne : index ≠ entry.outcome := by
    intro heq
    rw [← heq, hlead] at howner
    cases howner
    exact hstage hregistered
  show (indexes.leads.set index lead')[entry.outcome]? = some owner
  rw [List.getElem?_set_ne hne, howner]

/-- A lead whose workspace has lost its entry may be in any stage. -/
theorem EntriesOk.set_of_erased {index : Nat} {lead lead' : InflightIndexLead}
    (h : indexes.EntriesOk) (hlead : indexes.leads[index]? = some lead) :
    (⟨indexes.registry.erase lead.workspaceId, indexes.leads.set index lead',
      indexes.followers⟩ : InflightIndexes).EntriesOk := by
  intro workspaceId entry hentry
  rw [getElem?_erase_key] at hentry
  split at hentry
  · cases hentry
  · rename_i hworkspace
    obtain ⟨owner, howner, howned, hregistered⟩ := h workspaceId entry hentry
    refine ⟨owner, ?_, howned, hregistered⟩
    have hne : index ≠ entry.outcome := by
      intro heq
      rw [← heq, hlead] at howner
      cases howner
      exact hworkspace howned.symm
    show (indexes.leads.set index lead')[entry.outcome]? = some owner
    rw [List.getElem?_set_ne hne, howner]

theorem EntriesOk.step (h : indexes.EntriesOk) (hstep : FlightStep indexes event next) :
    next.EntriesOk := by
  cases hstep with
  | joinOrLeadIndex workspaceId watch skipGitignore =>
    unfold InflightIndexes.joinOrLeadIndex
    split
    · split
      · exact h
      · exact h
    · intro other entry hentry
      simp only [Std.ExtTreeMap.getElem?_insert, compare_eq_iff] at hentry
      split at hentry
      · rename_i hsame
        cases hentry
        refine ⟨⟨workspaceId, none, none, .registered⟩, ?_, hsame.symm, rfl⟩
        simp
      · obtain ⟨lead, hlead, hrest⟩ := h other entry hentry
        refine ⟨lead, ?_, hrest⟩
        show (indexes.leads ++ _)[entry.outcome]? = some lead
        rw [List.getElem?_append_left (List.getElem?_eq_some_iff.mp hlead).1, hlead]
  | publishRemove index lead response hlead hstage => exact h.set_of_erased hlead
  | publishSend index lead hlead hstage =>
    exact h.set_of_not_registered hlead (by rw [hstage]; decide)
  | dropRemove index lead hlead hstage => exact h.set_of_erased hlead
  | dropSend index lead hlead hstage =>
    exact h.set_of_not_registered hlead (by rw [hstage]; decide)
  | receive index follower lead response hfollower hlead hwaiting hresponse => exact h

/-- Every lead that is neither published nor dropped has the entry of its workspace. -/
def LeadsOk (indexes : InflightIndexes) : Prop :=
  ∀ (index : Nat) (lead : InflightIndexLead), indexes.leads[index]? = some lead →
    lead.stage = .registered →
      ∃ entry, indexes.registry[lead.workspaceId]? = some entry ∧ entry.outcome = index

/-- The event drops a published lead while another lead of its workspace is registered. -/
def RemovesOther (indexes : InflightIndexes) (event : FlightEvent) : Prop :=
  ∃ index lead, event = .dropRemove index ∧ indexes.leads[index]? = some lead ∧
    lead.stage = .published ∧ indexes.indexInFlight lead.workspaceId = true

/-- A lead moves on, and the entry of its workspace goes if no other lead has it. -/
theorem LeadsOk.set_of_erased {index : Nat} {lead lead' : InflightIndexLead}
    (h : indexes.LeadsOk) (hlead : indexes.leads[index]? = some lead)
    (hstage : lead'.stage ≠ .registered)
    (hother : ∀ entry, indexes.registry[lead.workspaceId]? = some entry → entry.outcome = index) :
    (⟨indexes.registry.erase lead.workspaceId, indexes.leads.set index lead',
      indexes.followers⟩ : InflightIndexes).LeadsOk := by
  intro other led hled hregistered
  have hne : index ≠ other := by
    intro heq
    subst heq
    have hself : (indexes.leads.set index lead')[index]? = some led := hled
    rw [List.getElem?_set_self (List.getElem?_eq_some_iff.mp hlead).1] at hself
    cases hself
    exact hstage hregistered
  have hled' : (indexes.leads.set index lead')[other]? = some led := hled
  rw [List.getElem?_set_ne hne] at hled'
  obtain ⟨entry, hentry, houtcome⟩ := h other led hled' hregistered
  refine ⟨entry, ?_, houtcome⟩
  show (indexes.registry.erase lead.workspaceId)[led.workspaceId]? = some entry
  rw [getElem?_erase_key, if_neg]
  · exact hentry
  · intro hsame
    rw [hsame] at hentry
    exact hne ((hother entry hentry).symm.trans houtcome)

/-- A lead moves on to another stage than the first one. -/
theorem LeadsOk.set {index : Nat} {lead lead' : InflightIndexLead} (h : indexes.LeadsOk)
    (hlead : indexes.leads[index]? = some lead) (hstage : lead'.stage ≠ .registered) :
    (⟨indexes.registry, indexes.leads.set index lead', indexes.followers⟩ :
      InflightIndexes).LeadsOk := by
  intro other led hled hregistered
  have hled' : (indexes.leads.set index lead')[other]? = some led := hled
  by_cases hsame : index = other
  · subst hsame
    rw [List.getElem?_set_self (List.getElem?_eq_some_iff.mp hlead).1] at hled'
    cases hled'
    exact absurd hregistered hstage
  · rw [List.getElem?_set_ne hsame] at hled'
    exact h other led hled' hregistered

theorem LeadsOk.step (h : indexes.LeadsOk) (hfair : ¬indexes.RemovesOther event)
    (hstep : FlightStep indexes event next) : next.LeadsOk := by
  cases hstep with
  | joinOrLeadIndex workspaceId watch skipGitignore =>
    unfold InflightIndexes.joinOrLeadIndex
    split
    · split
      · exact h
      · exact h
    · rename_i hnone
      intro index lead hlead hregistered
      simp only [Std.ExtTreeMap.getElem?_insert, compare_eq_iff]
      simp only [List.getElem?_append] at hlead
      split at hlead
      · obtain ⟨entry, hentry, houtcome⟩ := h index lead hlead hregistered
        refine ⟨entry, ?_, houtcome⟩
        rw [if_neg]
        · exact hentry
        · intro hsame
          rw [hsame, hnone] at hentry
          cases hentry
      · rename_i hlast
        obtain ⟨hindex, hnew⟩ := List.getElem?_eq_some_iff.mp hlead
        have hzero : index - indexes.leads.length = 0 := by
          have hlength : index - indexes.leads.length < 1 := hindex
          omega
        have hlead' : lead = ⟨workspaceId, none, none, .registered⟩ := by
          rw [← hnew]
          exact List.eq_of_mem_singleton (List.getElem_mem hindex)
        rw [hlead', if_pos rfl]
        exact ⟨_, rfl, by show indexes.leads.length = index; omega⟩
  | publishRemove index lead response hlead hstage =>
    apply h.set_of_erased hlead (by simp)
    intro entry hentry
    obtain ⟨own, hown, houtcome⟩ := h index lead hlead hstage
    rw [hown] at hentry
    cases hentry
    exact houtcome
  | publishSend index lead hlead hstage => exact h.set hlead (by simp)
  | dropRemove index lead hlead hstage =>
    apply h.set_of_erased hlead (by simp)
    intro entry hentry
    cases hstage with
    | inl hregistered =>
      obtain ⟨own, hown, houtcome⟩ := h index lead hlead hregistered
      rw [hown] at hentry
      cases hentry
      exact houtcome
    | inr hpublished =>
      refine absurd ⟨index, lead, rfl, hlead, hpublished, ?_⟩ hfair
      unfold indexInFlight
      rw [Std.ExtTreeMap.contains_eq_isSome_getElem?, hentry]
      rfl
  | dropSend index lead hlead hstage => exact h.set hlead (by simp)
  | receive index follower lead response hfollower hlead hwaiting hresponse => exact h

end InflightIndexes

/-! ## Runs -/

/-- The states that the allowed events can reach. -/
inductive FlightRun (allowed : InflightIndexes → FlightEvent → Prop) : InflightIndexes → Prop where
  | init : FlightRun allowed .default
  | step {indexes next : InflightIndexes} {event : FlightEvent}
      (hrun : FlightRun allowed indexes) (hallowed : allowed indexes event)
      (hstep : FlightStep indexes event next) : FlightRun allowed next

/-- No published lead is dropped while another lead of its workspace is registered. -/
def KeepsOthers (indexes : InflightIndexes) (event : FlightEvent) : Prop :=
  ¬indexes.RemovesOther event

theorem FlightRun.invariant {indexes : InflightIndexes} (h : FlightRun KeepsOthers indexes) :
    indexes.ChannelsOk ∧ indexes.EntriesOk ∧ indexes.LeadsOk := by
  induction h with
  | init =>
    refine ⟨⟨fun _ hlead => absurd hlead List.not_mem_nil,
      fun _ hfollower => absurd hfollower List.not_mem_nil⟩, ?_, ?_⟩
    · intro workspaceId entry hentry
      simp [InflightIndexes.default] at hentry
    · intro index lead hlead
      simp [InflightIndexes.default] at hlead
  | step hrun hkeeps hstep ih =>
    obtain ⟨hchannels, hentries, hleads⟩ := ih
    exact ⟨hchannels.step hentries hstep, hentries.step hstep, hleads.step hkeeps hstep⟩

/-- A lead that has begun neither to publish nor to drop. -/
def InflightIndexes.Live (indexes : InflightIndexes) (index : Nat) (workspaceId : Str) : Prop :=
  ∃ lead, indexes.leads[index]? = some lead ∧ lead.workspaceId = workspaceId ∧
    lead.stage = .registered

private theorem keepsOthers_of_ne {indexes : InflightIndexes} {event : FlightEvent}
    (h : ∀ index, event ≠ .dropRemove index) : KeepsOthers indexes event := by
  intro hremoves
  obtain ⟨index, lead, hevent, -⟩ := hremoves
  exact h index hevent

private def finished : DaemonResponse := .ack ['d']

end Ivygrep.Native
