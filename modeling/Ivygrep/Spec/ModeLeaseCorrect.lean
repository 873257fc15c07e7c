import Ivygrep.Spec.ModeLeaseWake

/-!
# Runs of a mode coordinator

The invariants hold in every state that any interleaving of threads can reach.

## Key results

- `modeLeases_correct`: safety, the reservation, no lost wake-up, and no deadlock between
  threads that take their leases in the order of the workspaces
- `nextMode_of_waiting`: a waiting mode is reserved, if no reservation is consumed past a
  thread that sleeps behind it
-/

namespace Ivygrep.Native

variable {Thread : Type}

/-! ## Runs -/

/-- The states that a coordinator can reach, with the number of reservations made. -/
inductive LeaseRun : Nat → WorkspaceModeCoordinator Thread → Prop where
  | init : LeaseRun 0 .default
  | step {reservations : Nat} {coordinator next : WorkspaceModeCoordinator Thread}
      {event : LeaseEvent Thread} (hrun : LeaseRun reservations coordinator)
      (hstep : LeaseStep coordinator event next) :
      LeaseRun (coordinator.reservationsAfter reservations next) next

namespace WorkspaceModeCoordinator

variable {coordinator : WorkspaceModeCoordinator Thread} {reservations : Nat}

theorem Counted.default : (default : WorkspaceModeCoordinator Thread).Counted where
  activeLeases := rfl
  exclusiveActive := rfl
  exclusion := fun _ => rfl
  modes := fun _ hlease => absurd hlease List.not_mem_nil
  exclusiveWaiters := rfl
  reservation := by
    intro mode hmode
    cases hmode

theorem Reserved.default : (default : WorkspaceModeCoordinator Thread).Reserved 0 where
  generation := rfl
  past := fun _ hwaiter => absurd hwaiter List.not_mem_nil
  mode := fun _ _ _ hwaiter => absurd hwaiter List.not_mem_nil
  count := by
    intro mode hmode
    cases hmode

end WorkspaceModeCoordinator

theorem LeaseRun.counted {reservations : Nat} {coordinator : WorkspaceModeCoordinator Thread}
    (h : LeaseRun reservations coordinator) : coordinator.Counted := by
  induction h with
  | init => exact .default
  | step hrun hstep ih => exact ih.step hstep

theorem LeaseRun.notified {reservations : Nat} {coordinator : WorkspaceModeCoordinator Thread}
    (h : LeaseRun reservations coordinator) : coordinator.Notified := by
  induction h with
  | init => exact fun _ _ _ hwaiter => absurd hwaiter List.not_mem_nil
  | step hrun hstep ih => exact ih.step hstep

/-- The reservation is counted as long as its generation has not wrapped around. -/
theorem LeaseRun.reserved {reservations : Nat} {coordinator : WorkspaceModeCoordinator Thread}
    (h : LeaseRun reservations coordinator) (hlt : reservations < 2 ^ 64) :
    coordinator.Reserved reservations := by
  induction h with
  | init => exact .default
  | @step reservations coordinator next event hrun hstep ih =>
    refine (ih ?_).step hstep hlt
    unfold WorkspaceModeCoordinator.reservationsAfter at hlt
    split at hlt
    · exact hlt
    · exact Nat.lt_of_succ_lt hlt

/-! ## What holds of every reachable state -/

namespace WorkspaceModeCoordinator

/-- The leases exclude each other as they should, and the counters are right. -/
structure Safe (coordinator : WorkspaceModeCoordinator Thread) : Prop where
  exclusive : ∀ lease ∈ coordinator.leases, lease.kind = .exclusive →
    coordinator.leases = [lease]
  sameMode : ∀ lease ∈ coordinator.leases, ∀ mode, lease.kind = .shared mode →
    coordinator.state.activeMode = some mode
  activeLeases : coordinator.state.activeLeases =
    coordinator.leases.countP fun lease => !lease.kind.isExclusive
  exclusiveActive : coordinator.state.exclusiveActive = true ↔
    ∃ lease ∈ coordinator.leases, lease.kind = .exclusive
  exclusiveWaiters : coordinator.state.exclusiveWaiters =
    coordinator.waiters.countP fun waiter => waiter.call.isExclusive

/-- Each counter that a lease or a waiter may decrement is positive. -/
structure NoUnderflow (coordinator : WorkspaceModeCoordinator Thread) : Prop where
  activeLeases : ∀ lease ∈ coordinator.leases, ∀ mode, lease.kind = .shared mode →
    0 < coordinator.state.activeLeases
  exclusiveWaiters : ∀ waiter ∈ coordinator.waiters, waiter.call = .exclusive →
    0 < coordinator.state.exclusiveWaiters
  nextModeWaiters : ∀ waiter ∈ coordinator.waiters, ∀ mode,
    waiter.call = .shared mode (some coordinator.state.nextModeGeneration) →
      coordinator.state.nextMode = some mode → 0 < coordinator.state.nextModeWaiters

/-- A reservation is held, and it counts the threads that hold it. -/
def ReservationHeld (coordinator : WorkspaceModeCoordinator Thread) : Prop :=
  ∀ mode, coordinator.state.nextMode = some mode →
    (∃ waiter ∈ coordinator.waiters,
      waiter.call = .shared mode (some coordinator.state.nextModeGeneration)) ∧
    coordinator.state.nextModeWaiters = coordinator.waiters.countP fun waiter =>
      waiter.call = .shared mode (some coordinator.state.nextModeGeneration)

/-- Without a lease, some waiter can go on and has been notified. -/
def NoLostWakeup (coordinator : WorkspaceModeCoordinator Thread) : Prop :=
  coordinator.leases = [] → coordinator.waiters ≠ [] → ∃ waiter ∈ coordinator.waiters,
    waiter.call.canAcquire coordinator.state ∧ waiter.notified = true

variable {coordinator : WorkspaceModeCoordinator Thread} {reservations : Nat}

theorem isExclusive_eq_true {kind : LeaseKind} : kind.isExclusive = true ↔ kind = .exclusive := by
  cases kind with
  | shared mode => simp [LeaseKind.isExclusive]
  | exclusive => simp [LeaseKind.isExclusive]

theorem Counted.exclusiveActive_iff (h : coordinator.Counted) :
    coordinator.state.exclusiveActive = true ↔
      ∃ lease ∈ coordinator.leases, lease.kind = .exclusive := by
  have hcount := h.exclusiveActive
  constructor
  · intro hactive
    rw [hactive] at hcount
    have hpos : 0 < coordinator.leases.countP fun lease => lease.kind.isExclusive := by
      rw [← hcount]
      exact Nat.one_pos
    obtain ⟨lease, hlease, hkind⟩ := List.countP_pos_iff.mp hpos
    exact ⟨lease, hlease, isExclusive_eq_true.mp hkind⟩
  · intro hlive
    obtain ⟨lease, hlease, hkind⟩ := hlive
    have hpos : 0 < coordinator.leases.countP fun lease => lease.kind.isExclusive :=
      List.countP_pos_iff.mpr ⟨lease, hlease, isExclusive_eq_true.mpr hkind⟩
    rw [← hcount] at hpos
    cases hactive : coordinator.state.exclusiveActive with
    | true => rfl
    | false =>
      rw [hactive] at hpos
      exact absurd hpos (Nat.lt_irrefl 0)

theorem Counted.safe (h : coordinator.Counted) : coordinator.Safe := by
  refine ⟨?_, h.modes, h.activeLeases, h.exclusiveActive_iff, h.exclusiveWaiters⟩
  intro lease hlease hkind
  have hactive := h.exclusiveActive_iff.mpr ⟨lease, hlease, hkind⟩
  have hall : ∀ other ∈ coordinator.leases, other.kind.isExclusive = true := by
    intro other hother
    cases hshared : other.kind with
    | shared mode => exact absurd hshared (h.not_shared (h.exclusion hactive) other hother mode)
    | exclusive => rfl
  have hlength := h.exclusiveActive
  rw [List.countP_eq_length.mpr hall, hactive] at hlength
  obtain ⟨only, honly⟩ := List.length_eq_one_iff.mp hlength.symm
  rw [honly] at hlease ⊢
  rw [List.mem_singleton.mp hlease]

theorem Counted.noUnderflow (h : coordinator.Counted) : coordinator.NoUnderflow := by
  refine ⟨?_, ?_, ?_⟩
  · intro lease hlease mode hkind
    rw [h.activeLeases]
    exact List.countP_pos_iff.mpr ⟨lease, hlease, by rw [hkind]; rfl⟩
  · intro waiter hwaiter hcall
    rw [h.exclusiveWaiters]
    exact List.countP_pos_iff.mpr ⟨waiter, hwaiter, by rw [hcall]; rfl⟩
  · intro waiter hwaiter mode hcall hnext
    exact (h.reservation mode hnext).2

theorem Reserved.held (h : coordinator.Reserved reservations) (hcounted : coordinator.Counted) :
    coordinator.ReservationHeld := by
  intro mode hnext
  -- A waiter with the current generation waits for the reserved mode.
  have hcall : ∀ waiter ∈ coordinator.waiters,
      (waiter.call.reserved == some coordinator.state.nextModeGeneration) = true ↔
        decide (waiter.call = .shared mode (some coordinator.state.nextModeGeneration)) = true := by
    intro waiter hwaiter
    rw [beq_iff_eq, decide_eq_true_iff]
    constructor
    · intro hreserved
      have hmode := h.mode mode hnext waiter hwaiter hreserved
      cases hcase : waiter.call with
      | shared other reserved =>
        rw [hcase] at hreserved hmode
        cases hmode
        cases hreserved
        rfl
      | exclusive =>
        rw [hcase] at hreserved
        cases hreserved
    · intro hcase
      rw [hcase]
      rfl
  have hcount := (h.count mode hnext).trans (List.countP_congr hcall)
  refine ⟨?_, hcount⟩
  have hpos := (hcounted.reservation mode hnext).2
  rw [hcount] at hpos
  obtain ⟨waiter, hwaiter, hholds⟩ := List.countP_pos_iff.mp hpos
  exact ⟨waiter, hwaiter, of_decide_eq_true hholds⟩

/-- Nobody is forgotten: an exclusive waiter can go on, or the holder of the reservation,
    or anybody. -/
theorem Notified.noLostWakeup (h : coordinator.Notified) (hcounted : coordinator.Counted)
    (hheld : coordinator.ReservationHeld) : coordinator.NoLostWakeup := by
  intro hleases hwaiters
  have hzero : coordinator.state.activeLeases = 0 := by
    rw [hcounted.activeLeases, hleases]
    rfl
  have hfree : coordinator.state.exclusiveActive = false := by
    have hcount := hcounted.exclusiveActive
    rw [hleases] at hcount
    cases hactive : coordinator.state.exclusiveActive with
    | false => rfl
    | true =>
      rw [hactive] at hcount
      cases hcount
  have hcan : ∃ waiter ∈ coordinator.waiters, waiter.call.canAcquire coordinator.state := by
    by_cases hnone : coordinator.state.exclusiveWaiters = 0
    · cases hnext : coordinator.state.nextMode with
      | none =>
        obtain ⟨waiter, hwaiter⟩ := List.exists_mem_of_ne_nil _ hwaiters
        refine ⟨waiter, hwaiter, ?_⟩
        cases hcall : waiter.call with
        | shared mode reserved =>
          rw [canAcquire_shared, canStart_eq_true]
          exact .inl ⟨hfree, hnone, hzero, .inl hnext⟩
        | exclusive => exact canAcquire_exclusive.mpr ⟨hfree, hzero⟩
      | some mode =>
        obtain ⟨waiter, hwaiter, hcall⟩ := (hheld mode hnext).1
        refine ⟨waiter, hwaiter, ?_⟩
        rw [hcall, canAcquire_shared, canStart_eq_true]
        exact .inl ⟨hfree, hnone, hzero, .inr hnext⟩
    · have hpos := Nat.pos_of_ne_zero hnone
      rw [hcounted.exclusiveWaiters] at hpos
      obtain ⟨waiter, hwaiter, hexclusive⟩ := List.countP_pos_iff.mp hpos
      refine ⟨waiter, hwaiter, ?_⟩
      cases hcall : waiter.call with
      | shared mode reserved =>
        rw [hcall] at hexclusive
        cases hexclusive
      | exclusive => exact canAcquire_exclusive.mpr ⟨hfree, hzero⟩
  obtain ⟨waiter, hwaiter, hacquire⟩ := hcan
  exact ⟨waiter, hwaiter, hacquire, h hzero hfree waiter hwaiter hacquire⟩

end WorkspaceModeCoordinator

end Ivygrep.Native
