import Ivygrep.Native.SearchCancellation

/-!
# Cancelling searches that run and searches to come

The map and the deque of the registry agree in every run. A cancel reaches the search that holds
its id, or marks the id so that the next search of that id starts cancelled.

## Key results

- `RegistryOk`: how the entries, the deque, the tokens and the calls so far fit together
- `searchCancellations_correct`: what every run keeps, and what its next cancel does
- `repeated_cancel_expires`: a second cancel of a marked id does not renew the mark
-/

namespace Ivygrep.Native

/-! ## What the calls so far say -/

namespace CancellationEvent

/-- The registration that a call handed out. -/
def registration : CancellationEvent → Option ActiveSearchRegistration
  | .register _ (.ok (some registration)) => some registration
  | _ => none

/-- A cancel of an id without a live registration returns no token. -/
def isUnregisteredCancel : CancellationEvent → Bool
  | .cancel _ none => true
  | _ => false

/-- A call that registers a search under an id, or fails to. -/
def Registers (requestId : Uuid) (event : CancellationEvent) : Prop :=
  ∃ result, event = .register (some requestId) result

end CancellationEvent

/-- Every search of a run. -/
def searchesOf (events : List CancellationEvent) : List ActiveSearchRegistration :=
  events.filterMap CancellationEvent.registration

def WasCancelled (events : List CancellationEvent) (requestId : Uuid) : Prop :=
  ∃ result, .cancel requestId result ∈ events

theorem searchesOf_concat_none {events : List CancellationEvent} {event : CancellationEvent}
    (h : event.registration = none) : searchesOf (events ++ [event]) = searchesOf events := by
  simp [searchesOf, List.filterMap_append, h]

theorem searchesOf_concat_some {events : List CancellationEvent} {event : CancellationEvent}
    {registration : ActiveSearchRegistration} (h : event.registration = some registration) :
    searchesOf (events ++ [event]) = searchesOf events ++ [registration] := by
  simp [searchesOf, List.filterMap_append, h]

theorem WasCancelled.concat {events : List CancellationEvent} {requestId : Uuid}
    (h : WasCancelled events requestId) (event : CancellationEvent) :
    WasCancelled (events ++ [event]) requestId := by
  obtain ⟨result, hmem⟩ := h
  exact ⟨result, List.mem_append_left _ hmem⟩

/-! ## The operations -/

namespace SearchCancellations

variable {searches next : SearchCancellations} {event : CancellationEvent}

theorem isCancelled_of_cells {other : SearchCancellations} (h : other.cells = searches.cells)
    (token : SearchCancellation) : other.isCancelled token = searches.isCancelled token := by
  rw [isCancelled, isCancelled, h]

/-- A cancelled token stays cancelled, and no other token is. -/
theorem isCancelled_cancel (token other : SearchCancellation) :
    (searches.cancel token).isCancelled other = true ↔
      searches.isCancelled other = true ∨ other = token ∧ token.cell < searches.cells.length := by
  unfold isCancelled cancel
  rw [List.getElem?_modify]
  by_cases hcell : token.cell = other.cell
  · have hsame : other = token := by
      cases token; cases other; simp_all
    subst hsame
    by_cases hlt : other.cell < searches.cells.length
    · simp [hlt, CancellationCell.cancel]
    · simp [hlt]
  · have hne : other ≠ token := by
      rintro rfl
      exact hcell rfl
    simp [hcell, hne]

/-- The end of a search cancels nothing. -/
theorem isCancelled_finish {other : SearchCancellations} {cell : Nat}
    (h : other.cells = searches.cells.modify cell CancellationCell.finish)
    (token : SearchCancellation) : other.isCancelled token = searches.isCancelled token := by
  unfold isCancelled
  rw [h, List.getElem?_modify]
  cases searches.cells[token.cell]? with
  | none => rfl
  | some found =>
    by_cases hcell : cell = token.cell
    · simp [hcell, CancellationCell.finish]
    · simp [hcell]

/-- A new cell is what it was made, and no other token changes. -/
theorem isCancelled_created {other : SearchCancellations} {cancelled : Bool}
    (h : other.cells = searches.cells ++ [CancellationCell.new cancelled])
    (token : SearchCancellation) :
    other.isCancelled token =
      if token = searches.fresh then cancelled else searches.isCancelled token := by
  unfold isCancelled fresh
  rw [h]
  obtain ⟨cell⟩ := token
  by_cases hlt : cell < searches.cells.length
  · have hne : cell ≠ searches.cells.length := by omega
    simp [List.getElem?_append_left hlt, hne]
  · by_cases heq : cell = searches.cells.length
    · simp [heq, CancellationCell.new]
    · have hlast : (searches.cells ++ [CancellationCell.new cancelled]).length ≤ cell := by
        simp
        omega
      simp [List.getElem?_eq_none hlast, List.getElem?_eq_none (Nat.not_lt.mp hlt), heq]

/-- A marked id takes its token along. -/
theorem registerSearch_marked {id : Uuid} {token : SearchCancellation}
    (hentry : searches.registry.entries id = some (.tombstone token)) :
    ∃ next, searches.registerSearch (some id) = (next, .ok (some ⟨id, token⟩)) ∧
      next.cells = searches.cells := by
  simp only [registerSearch, hentry]
  exact ⟨_, rfl, rfl⟩

theorem registerSearch_unknown {id : Uuid} (hentry : searches.registry.entries id = none) :
    ∃ next, searches.registerSearch (some id) = (next, .ok (some ⟨id, searches.fresh⟩)) ∧
      next.cells = searches.cells ++ [CancellationCell.new false] := by
  simp only [registerSearch, hentry]
  exact ⟨_, rfl, rfl⟩

/-- With at most one tombstone too many, the loop drops the oldest one or nothing. -/
theorem expire_cases {entries : Uuid → Option SearchCancellationEntry} {tombstones : List Uuid}
    (hlength : tombstones.length ≤ maxSearchCancellationTombstones + 1)
    (hmarked : ∀ id ∈ tombstones, ∃ token, entries id = some (.tombstone token)) :
    tombstones.length ≤ maxSearchCancellationTombstones ∧
        SearchCancellationRegistry.expire entries tombstones = ⟨entries, tombstones⟩ ∨
      ∃ expired rest, tombstones = expired :: rest ∧
        rest.length = maxSearchCancellationTombstones ∧
        SearchCancellationRegistry.expire entries tombstones =
          ⟨Function.update entries expired none, rest⟩ := by
  have hstop : ∀ (kept : Uuid → Option SearchCancellationEntry) (ids : List Uuid),
      ids.length ≤ maxSearchCancellationTombstones →
      SearchCancellationRegistry.expire kept ids = ⟨kept, ids⟩ := by
    intro kept ids hle
    cases ids with
    | nil => rfl
    | cons id ids => rw [SearchCancellationRegistry.expire, if_neg (by omega)]
  by_cases hle : tombstones.length ≤ maxSearchCancellationTombstones
  · exact .inl ⟨hle, hstop entries tombstones hle⟩
  · right
    cases tombstones with
    | nil => simp at hle
    | cons expired rest =>
      obtain ⟨token, htoken⟩ := hmarked expired (by simp)
      have hrest : rest.length = maxSearchCancellationTombstones := by
        simp only [List.length_cons] at hlength hle
        omega
      have hexpired : SearchCancellationRegistry.isTombstone entries expired = true := by
        simp [SearchCancellationRegistry.isTombstone, htoken]
      refine ⟨expired, rest, rfl, hrest, ?_⟩
      rw [SearchCancellationRegistry.expire, if_pos (by simp only [List.length_cons]; omega),
        if_pos hexpired]
      exact hstop _ rest (by omega)

/-! ## The invariant -/

/-- The entries that are active are those of the registrations that are held, the others are those
    of the deque; a token belongs to one search or to one tombstone, and is cancelled only if its
    id was. -/
structure RegistryOk (searches : SearchCancellations) (events : List CancellationEvent) :
    Prop where
  active : ∀ id token, searches.registry.entries id = some (.active token) ↔
    ⟨id, token⟩ ∈ searches.registrations
  marked : ∀ id, (∃ token, searches.registry.entries id = some (.tombstone token)) ↔
    id ∈ searches.registry.tombstones
  nodup : searches.registry.tombstones.Nodup
  length_le : searches.registry.tombstones.length ≤ maxSearchCancellationTombstones
  held : searches.registrations.Sublist (searchesOf events)
  tokens : ((searchesOf events).map ActiveSearchRegistration.cancellation).Nodup
  created : ∀ search ∈ searchesOf events, search.cancellation.cell < searches.cells.length
  flags : ∀ search ∈ searchesOf events, searches.isCancelled search.cancellation = true →
    WasCancelled events search.requestId
  marks : ∀ id token, searches.registry.entries id = some (.tombstone token) →
    token.cell < searches.cells.length ∧ searches.isCancelled token = true ∧
      WasCancelled events id ∧ ∀ search ∈ searchesOf events, search.cancellation ≠ token
  apart : ∀ id other token, searches.registry.entries id = some (.tombstone token) →
    searches.registry.entries other = some (.tombstone token) → id = other

variable {events : List CancellationEvent}

theorem default_ok : default.RegistryOk [] where
  active id token := by simp [default, SearchCancellationRegistry.default]
  marked id := by simp [default, SearchCancellationRegistry.default]
  nodup := List.nodup_nil
  length_le := Nat.zero_le _
  held := List.Sublist.refl _
  tokens := List.nodup_nil
  created search hsearch := by simp [searchesOf] at hsearch
  flags search hsearch := by simp [searchesOf] at hsearch
  marks id token hentry := by simp [default, SearchCancellationRegistry.default] at hentry
  apart id other token hentry := by simp [default, SearchCancellationRegistry.default] at hentry

/-- A search that is held has a token of its own. -/
theorem RegistryOk.eq_of_token (h : searches.RegistryOk events)
    {search other : ActiveSearchRegistration} (hsearch : search ∈ searchesOf events)
    (hother : other ∈ searchesOf events) (hsame : search.cancellation = other.cancellation) :
    search = other :=
  List.inj_on_of_nodup_map h.tokens hsearch hother hsame

theorem RegistryOk.mem_tombstones (h : searches.RegistryOk events) {id : Uuid}
    {token : SearchCancellation} (hentry : searches.registry.entries id = some (.tombstone token)) :
    id ∈ searches.registry.tombstones :=
  (h.marked id).mp ⟨token, hentry⟩

/-- A call that only sets flags keeps the invariant if the flags belong to ids that were
    cancelled. -/
theorem RegistryOk.setFlags (h : searches.RegistryOk events)
    (hregistry : next.registry = searches.registry)
    (hregistrations : next.registrations = searches.registrations)
    (hlength : next.cells.length = searches.cells.length)
    (hevent : event.registration = none)
    (hkeep : ∀ token, searches.isCancelled token = true → next.isCancelled token = true)
    (hset : ∀ search ∈ searchesOf events, next.isCancelled search.cancellation = true →
      searches.isCancelled search.cancellation = true ∨
        WasCancelled (events ++ [event]) search.requestId) :
    next.RegistryOk (events ++ [event]) := by
  have hsearches : searchesOf (events ++ [event]) = searchesOf events :=
    searchesOf_concat_none hevent
  constructor
  · rw [hregistry, hregistrations]
    exact h.active
  · rw [hregistry]
    exact h.marked
  · rw [hregistry]
    exact h.nodup
  · rw [hregistry]
    exact h.length_le
  · rw [hregistrations, hsearches]
    exact h.held
  · rw [hsearches]
    exact h.tokens
  · rw [hsearches, hlength]
    exact h.created
  · intro search hsearch hcancelled
    rw [hsearches] at hsearch
    rcases hset search hsearch hcancelled with hold | hnew
    · exact (h.flags search hsearch hold).concat event
    · exact hnew
  · intro id token hentry
    rw [hregistry] at hentry
    obtain ⟨hcell, hcancelled, hwas, hapart⟩ := h.marks id token hentry
    rw [hlength, hsearches]
    exact ⟨hcell, hkeep token hcancelled, hwas.concat event, hapart⟩
  · rw [hregistry]
    exact h.apart

/-- A registration takes a token that no search and no other id has. -/
theorem RegistryOk.activate (h : searches.RegistryOk events) {id : Uuid}
    {token : SearchCancellation} {entries : Uuid → Option SearchCancellationEntry}
    (hinactive : ∀ other, searches.registry.entries id ≠ some (.active other))
    (hentries : entries = Function.update searches.registry.entries id (some (.active token)))
    (hnext : next.registry =
      ⟨entries, searches.registry.tombstones.filter (· ≠ id)⟩)
    (hregistrations : next.registrations = searches.registrations ++ [⟨id, token⟩])
    (hlength : searches.cells.length ≤ next.cells.length) (hcell : token.cell < next.cells.length)
    (hevent : event.registration = some ⟨id, token⟩)
    (hflags : ∀ other : SearchCancellation, other.cell < searches.cells.length →
      next.isCancelled other = searches.isCancelled other)
    (hunused : ∀ search ∈ searchesOf events, search.cancellation ≠ token)
    (hmark : ∀ other, searches.registry.entries other = some (.tombstone token) → other = id)
    (hwas : next.isCancelled token = true → WasCancelled (events ++ [event]) id) :
    next.RegistryOk (events ++ [event]) := by
  have hsearches : searchesOf (events ++ [event]) = searchesOf events ++ [⟨id, token⟩] :=
    searchesOf_concat_some hevent
  -- A tombstone of the next state is one of another id.
  have htombstone : ∀ other found, entries other = some (.tombstone found) ↔
      other ≠ id ∧ searches.registry.entries other = some (.tombstone found) := by
    intro other found
    by_cases hother : other = id
    · simp [hentries, hother]
    · simp [hentries, hother]
  constructor
  · intro other found
    rw [hnext, hregistrations, List.mem_append, ← h.active]
    show entries other = _ ↔ _
    by_cases hother : other = id
    · subst hother
      simp [hentries, hinactive found, eq_comm]
    · simp [hentries, hother]
  · intro other
    rw [hnext]
    show (∃ found, entries other = _) ↔ other ∈ searches.registry.tombstones.filter _
    simp only [htombstone, exists_and_left, h.marked, List.mem_filter, decide_eq_true_eq]
    exact and_comm
  · rw [hnext]
    exact h.nodup.filter _
  · rw [hnext]
    exact (List.length_filter_le _ _).trans h.length_le
  · rw [hregistrations, hsearches]
    exact h.held.append (List.Sublist.refl _)
  · rw [hsearches, List.map_append]
    refine List.nodup_append.mpr ⟨h.tokens, List.nodup_singleton _, ?_⟩
    intro used hused other hother
    obtain ⟨search, hsearch, rfl⟩ := List.mem_map.mp hused
    rw [List.map_singleton, List.mem_singleton] at hother
    rw [hother]
    exact hunused search hsearch
  · intro search hsearch
    rw [hsearches, List.mem_append, List.mem_singleton] at hsearch
    rcases hsearch with hold | rfl
    · exact (h.created search hold).trans_le hlength
    · exact hcell
  · intro search hsearch hcancelled
    rw [hsearches, List.mem_append, List.mem_singleton] at hsearch
    rcases hsearch with hold | rfl
    · rw [hflags _ (h.created search hold)] at hcancelled
      exact (h.flags search hold hcancelled).concat event
    · exact hwas hcancelled
  · intro other found hentry
    rw [hnext, htombstone] at hentry
    obtain ⟨hbound, hcancelled, hid, hapart⟩ := h.marks other found hentry.2
    refine ⟨hbound.trans_le hlength, by rw [hflags found hbound, hcancelled], hid.concat event, ?_⟩
    intro search hsearch
    rw [hsearches, List.mem_append, List.mem_singleton] at hsearch
    rcases hsearch with hold | rfl
    · exact hapart search hold
    · rintro rfl
      exact hentry.1 (hmark other hentry.2)
  · intro left right found hleft hright
    rw [hnext, htombstone] at hleft hright
    exact h.apart left right found hleft.2 hright.2

/-! ## Steps -/

theorem not_mem_tombstones (h : searches.RegistryOk events) {id : Uuid}
    (hnone : searches.registry.entries id = none) : id ∉ searches.registry.tombstones := by
  intro hmem
  obtain ⟨token, htoken⟩ := (h.marked id).mpr hmem
  rw [hnone] at htoken
  cases htoken

theorem RegistryOk.register (h : searches.RegistryOk events) (requestId : Option Uuid) :
    (searches.registerSearch requestId).1.RegistryOk
      (events ++ [.register requestId (searches.registerSearch requestId).2]) := by
  cases requestId with
  | none =>
    exact h.setFlags rfl rfl rfl rfl (fun _ hold => hold) fun _ _ hold => .inl hold
  | some id =>
    cases hentry : searches.registry.entries id with
    | none =>
      -- A new search: its cell is the new one, which is not set.
      have hfresh : searches.isCancelled searches.fresh = false := by
        simp [isCancelled, fresh]
      simp only [registerSearch, hentry]
      refine h.activate (by simp [hentry]) rfl ?_ rfl (by simp [SearchCancellations.activate])
        (by simp [SearchCancellations.activate, fresh]) rfl ?_ ?_ ?_ ?_
      · have hfilter : searches.registry.tombstones.filter (· ≠ id) =
            searches.registry.tombstones := by
          rw [List.filter_eq_self]
          intro other hother
          have hne : other ≠ id := fun heq => not_mem_tombstones h hentry (heq ▸ hother)
          simp [hne]
        rw [hfilter]
        rfl
      · intro other hother
        rw [isCancelled_created (show _ = searches.cells ++ [CancellationCell.new false] from rfl),
          if_neg]
        rintro rfl
        simp [fresh] at hother
      · rintro search hsearch heq
        have hcell := h.created search hsearch
        simp [heq, fresh] at hcell
      · intro other hother
        have hcell := (h.marks other _ hother).1
        simp [fresh] at hcell
      · intro hcancelled
        rw [isCancelled_created (show _ = searches.cells ++ [CancellationCell.new false] from rfl),
          if_pos rfl] at hcancelled
        cases hcancelled
    | some entry =>
      cases entry with
      | active token =>
        simp only [registerSearch, hentry]
        exact h.setFlags rfl rfl rfl rfl (fun _ hold => hold) fun _ _ hold => .inl hold
      | tombstone token =>
        obtain ⟨hcell, -, hwas, hunused⟩ := h.marks id token hentry
        simp only [registerSearch, hentry]
        refine h.activate (by simp [hentry]) rfl rfl rfl (by simp [SearchCancellations.activate])
          hcell rfl (fun _ _ => rfl) hunused ?_ (fun _ => hwas.concat _)
        intro other hother
        exact h.apart other id token hother hentry

/-- What a cancel of an id without an entry does to the registry. -/
theorem cancelSearch_unknown (h : searches.RegistryOk events) {id : Uuid}
    (hnone : searches.registry.entries id = none) :
    ∃ next, searches.cancelSearch id = (next, none) ∧
      next.cells = searches.cells ++ [CancellationCell.new true] ∧
      next.registrations = searches.registrations ∧
      (∀ other token, next.registry.entries other = some (.active token) ↔
        searches.registry.entries other = some (.active token)) ∧
      (∀ other token, next.registry.entries other = some (.tombstone token) →
        searches.registry.entries other = some (.tombstone token) ∨
          other = id ∧ token = searches.fresh) ∧
      (∀ other, (∃ token, next.registry.entries other = some (.tombstone token)) ↔
        other ∈ next.registry.tombstones) ∧
      (searches.registry.tombstones.length < maxSearchCancellationTombstones ∧
          next.registry.tombstones = searches.registry.tombstones ++ [id] ∨
        ∃ expired, expired :: next.registry.tombstones = searches.registry.tombstones ++ [id] ∧
          next.registry.tombstones.length = maxSearchCancellationTombstones) := by
  obtain ⟨marked, hmarked⟩ : ∃ marked, marked = Function.update searches.registry.entries id
    (some (.tombstone searches.fresh)) := ⟨_, rfl⟩
  have hactive : ∀ other token, marked other = some (.active token) ↔
      searches.registry.entries other = some (.active token) := by
    intro other token
    by_cases hother : other = id
    · simp [hmarked, hother, hnone]
    · simp [hmarked, hother]
  have htombstone : ∀ other token, marked other = some (.tombstone token) →
      searches.registry.entries other = some (.tombstone token) ∨
        other = id ∧ token = searches.fresh := by
    intro other token hother
    by_cases heq : other = id
    · subst heq
      rw [hmarked, Function.update_self] at hother
      cases hother
      exact .inr ⟨rfl, rfl⟩
    · rw [hmarked, Function.update_of_ne heq] at hother
      exact .inl hother
  have hmem : ∀ other, (∃ token, marked other = some (.tombstone token)) ↔
      other ∈ searches.registry.tombstones ++ [id] := by
    intro other
    rw [List.mem_append, ← h.marked, List.mem_singleton]
    by_cases hother : other = id
    · simp [hmarked, hother]
    · simp [hmarked, hother]
  have hcancel : searches.cancelSearch id = ({ searches with
      registry := .expire marked (searches.registry.tombstones ++ [id])
      cells := searches.cells ++ [CancellationCell.new true] }, none) := by
    rw [cancelSearch, hnone, hmarked]
  refine ⟨_, hcancel, rfl, rfl, ?_⟩
  have hlength := h.length_le
  have hroom : (searches.registry.tombstones ++ [id]).length ≤
      maxSearchCancellationTombstones + 1 := by
    simp only [List.length_append, List.length_singleton]
    omega
  rcases expire_cases hroom (fun other hother => (hmem other).mpr hother) with ⟨hfits, hexpire⟩ | hfull
  · rw [hexpire]
    simp only [List.length_append, List.length_singleton] at hfits
    exact ⟨hactive, htombstone, hmem, .inl ⟨by omega, rfl⟩⟩
  · obtain ⟨expired, rest, hsplit, hrest, hexpire⟩ := hfull
    have hnodup : (searches.registry.tombstones ++ [id]).Nodup := by
      rw [List.nodup_append]
      refine ⟨h.nodup, List.nodup_singleton _, fun other hother last hlast heq => ?_⟩
      rw [List.mem_singleton.mp hlast] at heq
      exact not_mem_tombstones h hnone (heq ▸ hother)
    obtain ⟨dropped, hdropped⟩ := (hmem expired).mpr (by rw [hsplit]; simp)
    rw [hexpire]
    refine ⟨?_, ?_, ?_, .inr ⟨expired, hsplit.symm, hrest⟩⟩
    · intro other token
      rw [← hactive]
      by_cases hother : other = expired
      · simp [hother, hdropped]
      · simp [hother]
    · intro other token hentry
      apply htombstone
      by_cases hother : other = expired
      · simp [hother] at hentry
      · simpa [hother] using hentry
    · intro other
      rw [hsplit, List.nodup_cons] at hnodup
      by_cases hother : other = expired
      · simp [hother, hnodup.1]
      · simp [hother, hmem, hsplit]

theorem RegistryOk.cancel (h : searches.RegistryOk events) (id : Uuid) :
    (searches.cancelSearch id).1.RegistryOk
      (events ++ [.cancel id (searches.cancelSearch id).2]) := by
  cases hentry : searches.registry.entries id with
  | none =>
    obtain ⟨next, hcancel, hcells, hregistrations, hactive, htombstone, hmarked, hdeque⟩ :=
      cancelSearch_unknown h hentry
    have hsearches : searchesOf (events ++ [.cancel id none]) = searchesOf events :=
      searchesOf_concat_none rfl
    have hlength : searches.cells.length < next.cells.length := by
      rw [hcells]
      simp
    have hflags : ∀ token : SearchCancellation, token.cell < searches.cells.length →
        next.isCancelled token = searches.isCancelled token := by
      intro token hcell
      rw [isCancelled_created hcells, if_neg]
      rintro rfl
      simp [fresh] at hcell
    have hunique : (searches.registry.tombstones ++ [id]).Nodup := by
      rw [List.nodup_append]
      refine ⟨h.nodup, List.nodup_singleton _, fun other hother last hlast heq => ?_⟩
      rw [List.mem_singleton.mp hlast] at heq
      exact not_mem_tombstones h hentry (heq ▸ hother)
    rw [hcancel]
    constructor
    · intro other token
      rw [hactive, hregistrations]
      exact h.active other token
    · exact hmarked
    · rcases hdeque with ⟨-, hdeque⟩ | ⟨expired, hdeque, -⟩
      · rw [hdeque]
        exact hunique
      · rw [← hdeque] at hunique
        exact (List.nodup_cons.mp hunique).2
    · rcases hdeque with ⟨hfits, hdeque⟩ | ⟨expired, -, hfull⟩
      · rw [hdeque, List.length_append, List.length_singleton]
        exact hfits
      · exact hfull.le
    · rw [hregistrations, hsearches]
      exact h.held
    · rw [hsearches]
      exact h.tokens
    · intro search hsearch
      rw [hsearches] at hsearch
      exact (h.created search hsearch).trans hlength
    · intro search hsearch hcancelled
      rw [hsearches] at hsearch
      rw [hflags _ (h.created search hsearch)] at hcancelled
      exact (h.flags search hsearch hcancelled).concat _
    · intro other token hother
      rw [hsearches]
      rcases htombstone other token hother with hold | ⟨rfl, rfl⟩
      · obtain ⟨hcell, hcancelled, hwas, hapart⟩ := h.marks other token hold
        exact ⟨hcell.trans hlength, by rw [hflags token hcell, hcancelled], hwas.concat _, hapart⟩
      · refine ⟨by simp [fresh, hcells], ?_, ⟨none, by simp⟩, ?_⟩
        · rw [isCancelled_created hcells, if_pos rfl]
        · rintro search hsearch heq
          have hcell := h.created search hsearch
          simp [heq, fresh] at hcell
    · intro left right token hleft hright
      have hold : ∀ other, searches.registry.entries other ≠ some (.tombstone searches.fresh) := by
        intro other hother
        have hcell := (h.marks other _ hother).1
        simp [fresh] at hcell
      rcases htombstone left token hleft with hleft | ⟨rfl, rfl⟩
      · rcases htombstone right token hright with hright | ⟨rfl, rfl⟩
        · exact h.apart left right token hleft hright
        · exact absurd hleft (hold left)
      · rcases htombstone right _ hright with hright | ⟨rfl, -⟩
        · exact absurd hright (hold right)
        · rfl
  | some entry =>
    cases entry with
    | active token =>
      have hheld : ⟨id, token⟩ ∈ searchesOf events := h.held.subset ((h.active id token).mp hentry)
      simp only [cancelSearch, hentry]
      refine h.setFlags rfl rfl (by simp [SearchCancellations.cancel]) rfl ?_ ?_
      · intro other hother
        exact (isCancelled_cancel token other).mpr (.inl hother)
      · intro search hsearch hcancelled
        rcases (isCancelled_cancel token _).mp hcancelled with hold | ⟨hsame, -⟩
        · exact .inl hold
        · rw [h.eq_of_token hsearch hheld hsame]
          exact .inr ⟨some token, by simp⟩
    | tombstone token =>
      simp only [cancelSearch, hentry]
      refine h.setFlags rfl rfl (by simp [SearchCancellations.cancel]) rfl ?_ ?_
      · intro other hother
        exact (isCancelled_cancel token other).mpr (.inl hother)
      · intro search hsearch hcancelled
        rcases (isCancelled_cancel token _).mp hcancelled with hold | ⟨hsame, -⟩
        · exact .inl hold
        · exact absurd hsame ((h.marks id token hentry).2.2.2 search hsearch)

theorem RegistryOk.drop (h : searches.RegistryOk events)
    {registration : ActiveSearchRegistration}
    (hheld : registration ∈ searches.registrations) :
    (searches.dropRegistration registration).RegistryOk (events ++ [.drop registration]) := by
  obtain ⟨id, token⟩ := registration
  have howns := (h.active id token).mpr hheld
  have hsearches : searchesOf (events ++ [.drop ⟨id, token⟩]) = searchesOf events :=
    searchesOf_concat_none rfl
  have hnodup : searches.registrations.Nodup := (h.tokens.of_map _).sublist h.held
  have hfinish : (searches.dropRegistration ⟨id, token⟩).cells =
      searches.cells.modify token.cell CancellationCell.finish := rfl
  have hflags := isCancelled_finish hfinish
  have hentries : (searches.dropRegistration ⟨id, token⟩).registry.entries =
      Function.update searches.registry.entries id none := by
    simp [dropRegistration, howns]
  have htombstone : ∀ other found,
      (searches.dropRegistration ⟨id, token⟩).registry.entries other = some (.tombstone found) ↔
        searches.registry.entries other = some (.tombstone found) := by
    intro other found
    by_cases hother : other = id
    · simp [hentries, hother, howns]
    · simp [hentries, hother]
  constructor
  · intro other found
    rw [hentries]
    show _ ↔ _ ∈ searches.registrations.erase _
    rw [hnodup.mem_erase_iff, ← h.active]
    by_cases hother : other = id
    · subst hother
      simp [howns, eq_comm]
    · simp [hother]
  · intro other
    simp only [htombstone]
    exact h.marked other
  · exact h.nodup
  · exact h.length_le
  · rw [hsearches]
    exact (List.erase_sublist).trans h.held
  · rw [hsearches]
    exact h.tokens
  · rw [hsearches]
    show ∀ search ∈ _, _ < (searches.cells.modify _ _).length
    rw [List.length_modify]
    exact h.created
  · intro search hsearch hcancelled
    rw [hsearches] at hsearch
    rw [hflags] at hcancelled
    exact (h.flags search hsearch hcancelled).concat _
  · intro other found hentry
    obtain ⟨hcell, hcancelled, hwas, hapart⟩ := h.marks other found ((htombstone other found).mp hentry)
    rw [hsearches, hflags]
    refine ⟨?_, hcancelled, hwas.concat _, hapart⟩
    show _ < (searches.cells.modify _ _).length
    rw [List.length_modify]
    exact hcell
  · intro left right found hleft hright
    exact h.apart left right found ((htombstone left found).mp hleft)
      ((htombstone right found).mp hright)

theorem RegistryOk.step (h : searches.RegistryOk events)
    (hstep : CancellationStep searches event next) : next.RegistryOk (events ++ [event]) := by
  cases hstep with
  | register requestId => exact h.register requestId
  | cancel requestId => exact h.cancel requestId
  | drop registration hheld => exact h.drop hheld

/-! ## Marks -/

/-- An id is marked, with at most `newer` marks behind it. -/
def MarkedWithin (searches : SearchCancellations) (id : Uuid) (newer : Nat) : Prop :=
  ∃ front back, searches.registry.tombstones = front ++ id :: back ∧ back.length ≤ newer

theorem MarkedWithin.of_tombstones {id : Uuid} {newer : Nat} (h : searches.MarkedWithin id newer)
    (hsame : next.registry.tombstones = searches.registry.tombstones) {more : Nat}
    (hmore : newer ≤ more) : next.MarkedWithin id more := by
  obtain ⟨front, back, hsplit, hback⟩ := h
  exact ⟨front, back, hsame.trans hsplit, hback.trans hmore⟩

/-- A new mark goes behind the others, and pushes out only the first one. -/
theorem MarkedWithin.cancel (h : searches.RegistryOk events) {id : Uuid} {newer : Nat}
    (hmarked : searches.MarkedWithin id newer) (hroom : newer + 1 < maxSearchCancellationTombstones)
    (other : Uuid) : (searches.cancelSearch other).1.MarkedWithin id (newer + 1) := by
  cases hentry : searches.registry.entries other with
  | some entry =>
    refine hmarked.of_tombstones ?_ (Nat.le_succ newer)
    cases entry <;> simp only [cancelSearch, hentry] <;> rfl
  | none =>
    obtain ⟨front, back, hsplit, hback⟩ := hmarked
    obtain ⟨next, hcancel, -, -, -, -, -, hdeque⟩ := cancelSearch_unknown h hentry
    rw [hcancel]
    have hlength : (back ++ [other]).length ≤ newer + 1 := by
      simp only [List.length_append, List.length_singleton]
      omega
    rcases hdeque with ⟨-, hdeque⟩ | ⟨expired, hdeque, hfull⟩
    · exact ⟨front, back ++ [other], by rw [hdeque, hsplit]; simp, hlength⟩
    · rw [hsplit] at hdeque
      cases front with
      | nil =>
        -- The id would be the oldest mark of a full deque.
        have hrest : next.registry.tombstones = back ++ [other] := (List.cons_eq_cons.mp hdeque).2
        rw [hrest] at hfull
        omega
      | cons first front =>
        obtain ⟨-, hrest⟩ := List.cons_eq_cons.mp hdeque
        exact ⟨front, back ++ [other], by rw [hrest]; simp, hlength⟩

theorem MarkedWithin.register {id : Uuid} {newer : Nat} (h : searches.MarkedWithin id newer)
    {requestId : Option Uuid} (hother : requestId ≠ some id) :
    (searches.registerSearch requestId).1.MarkedWithin id newer := by
  cases requestId with
  | none => exact h
  | some other =>
    cases hentry : searches.registry.entries other with
    | none =>
      refine h.of_tombstones ?_ (Nat.le_refl newer)
      simp only [registerSearch, hentry]
      rfl
    | some entry =>
      cases entry with
      | active token =>
        refine h.of_tombstones ?_ (Nat.le_refl newer)
        simp only [registerSearch, hentry]
      | tombstone token =>
        obtain ⟨front, back, hsplit, hback⟩ := h
        have hne : id ≠ other := fun heq => hother (by rw [heq])
        refine ⟨front.filter (· ≠ other), back.filter (· ≠ other), ?_,
          (List.length_filter_le _ _).trans hback⟩
        simp only [registerSearch, hentry]
        show searches.registry.tombstones.filter _ = _
        simp [hsplit, List.filter_append, hne]

/-- Until its id is registered, a mark is behind at most as many as were cancelled since. -/
theorem MarkedWithin.step (h : searches.RegistryOk events) {id : Uuid} {newer : Nat}
    (hmarked : searches.MarkedWithin id newer) (hstep : CancellationStep searches event next)
    (hnot : ¬ event.Registers id)
    (hroom : newer + [event].countP CancellationEvent.isUnregisteredCancel <
      maxSearchCancellationTombstones) :
    next.MarkedWithin id (newer + [event].countP CancellationEvent.isUnregisteredCancel) := by
  cases hstep with
  | register requestId =>
    apply (hmarked.register ?_).of_tombstones rfl (Nat.le_add_right _ _)
    rintro rfl
    exact hnot ⟨_, rfl⟩
  | drop registration hheld => exact hmarked.of_tombstones rfl (Nat.le_add_right _ _)
  | cancel other =>
    cases hresult : (searches.cancelSearch other).2 with
    | none =>
      rw [hresult] at hroom
      exact hmarked.cancel h hroom other
    | some token =>
      -- Only a registered id has a token to return, and then the deque stays.
      refine hmarked.of_tombstones ?_ (Nat.le_add_right _ _)
      unfold cancelSearch at hresult ⊢
      split
      · rfl
      · rfl
      · rename_i hnone
        rw [hnone] at hresult
        cases hresult

end SearchCancellations

theorem CancellationRun.ok {start searches : SearchCancellations}
    {before events : List CancellationEvent} (hstart : start.RegistryOk before)
    (h : CancellationRun start events searches) : searches.RegistryOk (before ++ events) := by
  induction h with
  | init => rwa [List.append_nil]
  | step _ hstep ih =>
    rw [← List.append_assoc]
    exact ih.step hstep

theorem CancellationRun.marked {start searches : SearchCancellations}
    {before events : List CancellationEvent} (hstart : start.RegistryOk before) {id : Uuid}
    (hmarked : start.MarkedWithin id 0) (h : CancellationRun start events searches)
    (hnot : ∀ event ∈ events, ¬ event.Registers id)
    (hroom : events.countP CancellationEvent.isUnregisteredCancel <
      maxSearchCancellationTombstones) :
    searches.MarkedWithin id (events.countP CancellationEvent.isUnregisteredCancel) := by
  induction h with
  | init => exact hmarked
  | @step events event searches next hrun hstep ih =>
    rw [List.countP_append] at hroom ⊢
    have hearlier := ih (fun event hevent => hnot event (List.mem_append_left _ hevent)) (by omega)
    exact hearlier.step (hrun.ok hstart) hstep (hnot event (by simp)) hroom

/-- In every run an entry is active exactly for the id of a registration that is held, with its
    token, and the marked ids are those of the deque, which has none of them twice and at most
    `maxSearchCancellationTombstones`. The next cancel of an id that is neither registered nor
    marked cancels the search that is registered under the id next, unless
    `maxSearchCancellationTombstones` cancels of unregistered ids come before that; a cancel of a
    marked id leaves the marks as they are; a cancel of a registered id returns the token of its
    search and cancels that search and no other. A cancelled search is one whose id was
    cancelled. -/
theorem searchCancellations_correct {events : List CancellationEvent}
    {searches : SearchCancellations} (h : CancellationRun .default events searches) :
    (∀ id token, searches.registry.entries id = some (.active token) ↔
      ⟨id, token⟩ ∈ searches.registrations) ∧
    ((∀ id, (∃ token, searches.registry.entries id = some (.tombstone token)) ↔
        id ∈ searches.registry.tombstones) ∧
      searches.registry.tombstones.Nodup ∧
      searches.registry.tombstones.length ≤ maxSearchCancellationTombstones) ∧
    (∀ id, searches.registry.entries id = none →
      ∀ between later, CancellationRun (searches.cancelSearch id).1 between later →
        (∀ event ∈ between, ¬ event.Registers id) →
        between.countP CancellationEvent.isUnregisteredCancel < maxSearchCancellationTombstones →
        ∃ next token, later.registerSearch (some id) = (next, .ok (some ⟨id, token⟩)) ∧
          next.isCancelled token = true) ∧
    (∀ id token, searches.registry.entries id = some (.tombstone token) →
      ∃ next, searches.cancelSearch id = (next, none) ∧ next.registry = searches.registry) ∧
    (∀ id token, searches.registry.entries id = some (.active token) →
      ∃ next, searches.cancelSearch id = (next, some token) ∧ next.registry = searches.registry ∧
        next.isCancelled token = true ∧
        ∀ search ∈ searchesOf events, search ≠ ⟨id, token⟩ →
          next.isCancelled search.cancellation = searches.isCancelled search.cancellation) ∧
    ∀ search ∈ searchesOf events, searches.isCancelled search.cancellation = true →
      WasCancelled events search.requestId := by
  have hok : searches.RegistryOk events := h.ok SearchCancellations.default_ok
  refine ⟨hok.active, ⟨hok.marked, hok.nodup, hok.length_le⟩, ?_, ?_, ?_, hok.flags⟩
  · intro id hnone between later hrun hnot hroom
    have hcancelled := hok.cancel id
    obtain ⟨next, hcancel, -, -, -, -, -, hdeque⟩ :=
      SearchCancellations.cancelSearch_unknown hok hnone
    have hstart : (searches.cancelSearch id).1.MarkedWithin id 0 := by
      rw [hcancel]
      rcases hdeque with ⟨-, hdeque⟩ | ⟨expired, hdeque, hfull⟩
      · exact ⟨searches.registry.tombstones, [], hdeque, Nat.le_refl 0⟩
      · cases hold : searches.registry.tombstones with
        | nil =>
          rw [hold] at hdeque
          have hlength := congrArg List.length hdeque
          simp [hfull, maxSearchCancellationTombstones] at hlength
        | cons first rest =>
          rw [hold] at hdeque
          exact ⟨rest, [], (List.cons_eq_cons.mp hdeque).2, Nat.le_refl 0⟩
    obtain ⟨front, back, hsplit, -⟩ := hrun.marked hcancelled hstart hnot hroom
    have hlater := hrun.ok hcancelled
    obtain ⟨token, hentry⟩ := (hlater.marked id).mpr (by rw [hsplit]; simp)
    obtain ⟨-, hset, -⟩ := hlater.marks id token hentry
    obtain ⟨registered, hregister, hcells⟩ := SearchCancellations.registerSearch_marked hentry
    refine ⟨registered, token, hregister, ?_⟩
    rw [SearchCancellations.isCancelled_of_cells hcells, hset]
  · intro id token hentry
    exact ⟨searches.cancel token, by simp only [SearchCancellations.cancelSearch, hentry], rfl⟩
  · intro id token hentry
    have hheld : ⟨id, token⟩ ∈ searchesOf events := hok.held.subset ((hok.active id token).mp hentry)
    refine ⟨searches.cancel token, by simp only [SearchCancellations.cancelSearch, hentry], rfl,
      ?_, ?_⟩
    · exact (SearchCancellations.isCancelled_cancel token token).mpr
        (.inr ⟨rfl, hok.created _ hheld⟩)
    · intro search hsearch hne
      rw [Bool.eq_iff_iff, SearchCancellations.isCancelled_cancel]
      constructor
      · rintro (hold | ⟨hsame, -⟩)
        · exact hold
        · exact absurd (hok.eq_of_token hsearch hheld hsame) hne
      · exact .inl

/-! ## Sample runs -/

/-- A state after cancels of some ids. -/
private def cancelled (ids : List Uuid) : SearchCancellations :=
  ids.foldl (fun searches id => (searches.cancelSearch id).1) .default

private theorem cancelled_run (ids : List Uuid) :
    ∃ events, CancellationRun .default events (cancelled ids) := by
  induction ids using List.reverseRecOn with
  | nil => exact ⟨[], .init⟩
  | append_singleton ids id ih =>
    obtain ⟨events, hrun⟩ := ih
    rw [cancelled, List.foldl_concat]
    exact ⟨_, hrun.step (.cancel (cancelled ids) id)⟩

/-- A cancel, and then the search that it cancels. -/
theorem searchCancellations_correct_sample :
    ∃ next token, (SearchCancellations.default.cancelSearch 7).1.registerSearch (some 7) =
      (next, .ok (some ⟨7, token⟩)) ∧ next.isCancelled token = true :=
  (searchCancellations_correct .init).2.2.1 7 rfl [] _ .init (by simp) (by decide)

/-- The ids `0` to `255` are cancelled, then `0` a second time and `256`: one cancel has come after
    the second one of `0`, and the search `0` runs. -/
theorem repeated_cancel_expires :
    ∃ events searches between later next token, CancellationRun .default events searches ∧
      (∀ other, ⟨0, other⟩ ∉ searches.registrations) ∧
      CancellationRun (searches.cancelSearch 0).1 between later ∧
      (∀ event ∈ between, ¬ event.Registers 0) ∧
      between.countP CancellationEvent.isUnregisteredCancel < maxSearchCancellationTombstones ∧
      later.registerSearch (some 0) = (next, .ok (some ⟨0, token⟩)) ∧
      next.isCancelled token = false := by
  obtain ⟨marked, hmarked⟩ : ∃ marked, marked = cancelled ((List.range 256).map (BitVec.ofNat 128)) :=
    ⟨_, rfl⟩
  obtain ⟨events, hrun⟩ := cancelled_run ((List.range 256).map (BitVec.ofNat 128))
  rw [← hmarked] at hrun
  obtain ⟨hheld, hlater⟩ : marked.registrations = [] ∧
      ((marked.cancelSearch 0).1.cancelSearch 256).1.registry.entries 0 = none := by
    rw [hmarked]
    decide +kernel
  have hrun' := CancellationRun.init.step (.cancel (marked.cancelSearch 0).1 256)
  obtain ⟨next, hregister, hcells⟩ := SearchCancellations.registerSearch_unknown hlater
  refine ⟨events, marked, _, _, next, _, hrun, by simp [hheld], hrun', ?_, ?_, hregister, ?_⟩
  · intro event hevent hregisters
    obtain ⟨result, rfl⟩ := hregisters
    simp at hevent
  · exact (List.countP_le_length).trans_lt (by simp [maxSearchCancellationTombstones])
  · rw [SearchCancellations.isCancelled_created hcells, if_pos rfl]

end Ivygrep.Native
