import Ivygrep.Spec.ModeLeaseInv

/-!
# No lost wake-up

While nothing is leased, every parked thread that could go on has been notified since it
parked; and while a mode is reserved, the reservation counts the threads that hold it.
-/

namespace Ivygrep.Native

variable {Thread : Type}

theorem canAcquire_shared {mode : Bool} {reserved : Option UInt64}
    {state : WorkspaceModeCoordinatorState} :
    (AcquireCall.shared mode reserved).canAcquire state ↔
      state.canStart mode = true ∨ state.canJoin mode = true := by
  have hspec := acquireSharedTurn_spec state mode reserved false
  unfold AcquireCall.canAcquire
  show (∃ kind, (state.acquireSharedTurn mode reserved false).turn = _) ↔ _
  generalize state.acquireSharedTurn mode reserved false = result at hspec
  cases hspec with
  | start hstart => exact ⟨fun _ => .inl hstart, fun _ => ⟨_, rfl⟩⟩
  | join hjoin => exact ⟨fun _ => .inr hjoin, fun _ => ⟨_, rfl⟩⟩
  | wait hstart hjoin => simp [hstart, hjoin]
  | reserve hfree hnone hmode hnext hleases =>
    simp [canStart_eq_true, canJoin_eq_true, hleases, hmode]
  | joinReservation hfree hnone hmode hnext hleases =>
    simp [canStart_eq_true, canJoin_eq_true, hleases, hmode]

theorem canAcquire_exclusive {state : WorkspaceModeCoordinatorState} :
    AcquireCall.exclusive.canAcquire state ↔
      state.exclusiveActive = false ∧ state.activeLeases = 0 := by
  have hspec := acquireExclusiveTurn_spec state false
  unfold AcquireCall.canAcquire
  show (∃ kind, (state.acquireExclusiveTurn false).turn = _) ↔ _
  generalize state.acquireExclusiveTurn false = result at hspec
  cases hspec with
  | wait hbusy =>
    simp only [reduceCtorEq, exists_false, false_iff, not_and]
    intro hfree hzero
    cases hbusy with
    | inl hactive => exact Bool.false_ne_true (hfree.symm.trans hactive)
    | inr hpos => exact Nat.lt_irrefl 0 (hzero ▸ hpos)
  | acquire hfree hzero => exact ⟨fun _ => ⟨hfree, hzero⟩, fun _ => ⟨_, rfl⟩⟩

theorem notified_of_notifyAll {waiters : List (Waiter Thread)} {waiter : Waiter Thread}
    (h : waiter ∈ notifyWaiters true waiters) : waiter.notified = true := by
  obtain ⟨before, hbefore, rfl⟩ := List.mem_map.mp h
  rfl

namespace WorkspaceModeCoordinator

variable {coordinator : WorkspaceModeCoordinator Thread} {rest : List (Waiter Thread)}
  {waiter : Waiter Thread} {flag : Bool}

/-- Without a lease, every parked thread that could go on has been notified. -/
def Notified (coordinator : WorkspaceModeCoordinator Thread) : Prop :=
  coordinator.state.activeLeases = 0 → coordinator.state.exclusiveActive = false →
    ∀ waiter ∈ coordinator.waiters, waiter.call.canAcquire coordinator.state →
      waiter.notified = true

theorem Notified.takeTurn
    (h : ({ coordinator with waiters := rest } : WorkspaceModeCoordinator Thread).Notified) :
    (coordinator.takeTurn rest waiter flag).Notified := by
  cases hcall : waiter.call with
  | shared mode reserved =>
    have hspec := sharedTurn_spec hcall coordinator.state flag
    generalize hturn : waiter.call.turn coordinator.state flag = result at hspec
    cases hspec with
    | leave hnot =>
      rw [takeTurn_cancelled hturn]
      exact h
    | release hnext hreserved =>
      rw [takeTurn_cancelled hturn]
      intro hzero hfree other hother hacquire
      exact notified_of_notifyAll hother
    | start hstart =>
      rw [takeTurn_acquired hturn]
      intro hzero
      exact absurd hzero Nat.one_ne_zero
    | join hjoin hleases =>
      rw [takeTurn_acquired hturn]
      intro hzero
      exact absurd hzero (Nat.succ_ne_zero _)
    | wait hstart hjoin hwait =>
      rw [takeTurn_parked hturn]
      intro hzero hfree other hother hacquire
      cases List.mem_append.mp hother with
      | inl hold => exact h hzero hfree other hold hacquire
      | inr hagain =>
        -- It parks because it could not go on.
        rw [List.mem_singleton.mp hagain, canAcquire_shared, hstart, hjoin] at hacquire
        simp at hacquire
    | reserve hfree hnone hmode hnext hleases =>
      rw [takeTurn_parked hturn]
      intro hzero
      exact absurd hzero hleases
    | joinReservation hfree hnone hmode hnext hleases hreserved =>
      rw [takeTurn_parked hturn]
      intro hzero
      exact absurd hzero hleases
  | exclusive =>
    have hspec := exclusiveTurn_spec hcall coordinator.state flag
    generalize hturn : waiter.call.turn coordinator.state flag = result at hspec
    cases hspec with
    | leave =>
      rw [takeTurn_cancelled hturn]
      intro hzero hfree other hother hacquire
      exact notified_of_notifyAll hother
    | wait hbusy =>
      rw [takeTurn_parked hturn]
      intro hzero hfree
      cases hbusy with
      | inl hactive => exact absurd (hfree.symm.trans hactive) Bool.false_ne_true
      | inr hpos => exact absurd hpos (by rw [Nat.not_lt, Nat.le_zero]; exact hzero)
    | acquire hfree hzero =>
      rw [takeTurn_acquired hturn]
      intro hleases hexclusive
      cases hexclusive

/-- A thread that enters `acquire_exclusive` keeps the shared waiters from going on. -/
theorem Notified.countExclusive (h : coordinator.Notified) : coordinator.countExclusive.Notified := by
  intro hzero hfree other hother hacquire
  cases hcall : other.call with
  | shared mode reserved =>
    rw [hcall, canAcquire_shared, canStart_eq_true, canJoin_eq_true] at hacquire
    cases hacquire with
    | inl hstart => exact absurd hstart.2.1 (Nat.succ_ne_zero _)
    | inr hjoin => exact absurd hjoin.2.1 (Nat.succ_ne_zero _)
  | exclusive =>
    apply h hzero hfree other hother
    rw [hcall, canAcquire_exclusive]
    exact ⟨hfree, hzero⟩

/-- Every step keeps the parked threads notified. -/
theorem Notified.step {event : LeaseEvent Thread} {next : WorkspaceModeCoordinator Thread}
    (h : coordinator.Notified) (hstep : LeaseStep coordinator event next) : next.Notified := by
  cases hstep with
  | acquireShared thread mode cancellable flag hflag => exact Notified.takeTurn h
  | acquireExclusive thread cancellable entryFlag flag hentry hflag =>
    unfold WorkspaceModeCoordinator.acquireExclusive
    split
    · exact h
    · exact Notified.takeTurn h.countExclusive
  | tryAcquireShared thread mode =>
    obtain heq | ⟨hstart, heq⟩ | ⟨hjoin, -, heq⟩ :=
      tryAcquireShared_cases coordinator thread mode
    · rw [heq]
      exact h
    · rw [heq]
      intro hzero
      exact absurd hzero Nat.one_ne_zero
    · rw [heq]
      intro hzero
      exact absurd hzero (Nat.succ_ne_zero _)
  | wake front back waiter flag hwaiters hflag =>
    apply Notified.takeTurn
    intro hzero hfree other hother
    apply h hzero hfree other
    rw [hwaiters]
    exact List.perm_middle.mem_iff.mpr (List.mem_cons_of_mem _ hother)
  | dropLease front back lease hleases =>
    cases hkind : lease.kind with
    | shared mode =>
      rw [dropLease_shared hkind]
      intro hzero hfree other hother hacquire
      have hlast : (coordinator.state.activeLeases - 1 == 0) = true := beq_iff_eq.mpr hzero
      rw [hlast] at hother
      exact notified_of_notifyAll hother
    | exclusive =>
      rw [dropLease_exclusive hkind]
      intro hzero hfree other hother hacquire
      exact notified_of_notifyAll hother

/-! ## The reservation -/

/-- The reservation counts its holders, after `reservations` reservations. -/
structure Reserved (coordinator : WorkspaceModeCoordinator Thread) (reservations : Nat) :
    Prop where
  generation : coordinator.state.nextModeGeneration = UInt64.ofNat reservations
  past : ∀ waiter ∈ coordinator.waiters, ∀ generation, waiter.call.reserved = some generation →
    ∃ earlier ≤ reservations, generation = UInt64.ofNat earlier
  mode : ∀ mode, coordinator.state.nextMode = some mode → ∀ waiter ∈ coordinator.waiters,
    waiter.call.reserved = some coordinator.state.nextModeGeneration →
      waiter.call.mode = some mode
  count : ∀ mode, coordinator.state.nextMode = some mode → coordinator.state.nextModeWaiters =
    coordinator.waiters.countP fun waiter =>
      waiter.call.reserved == some coordinator.state.nextModeGeneration

/-- The reservations made after a step. -/
def reservationsAfter (reservations : Nat) (coordinator next : WorkspaceModeCoordinator Thread) :
    Nat :=
  if next.state.nextModeGeneration = coordinator.state.nextModeGeneration then reservations
  else reservations + 1

variable {reservations : Nat}

theorem reservationsAfter_same {next : WorkspaceModeCoordinator Thread}
    (h : next.state.nextModeGeneration = coordinator.state.nextModeGeneration) :
    reservationsAfter reservations coordinator next = reservations := if_pos h

/-- Generations that have not wrapped around are different. -/
theorem generation_ne {earlier : Nat} (hle : earlier ≤ reservations)
    (hlt : reservations + 1 < 2 ^ 64) : UInt64.ofNat earlier ≠ UInt64.ofNat reservations + 1 := by
  intro heq
  have hnat := congrArg UInt64.toNat heq
  rw [UInt64.toNat_add, UInt64.toNat_ofNat', UInt64.toNat_ofNat', UInt64.toNat_one] at hnat
  omega

theorem generation_succ_ne (generation : UInt64) : generation + 1 ≠ generation := by
  intro heq
  have hnat := congrArg UInt64.toNat heq
  have hlt := generation.toNat_lt
  rw [UInt64.toNat_add, UInt64.toNat_one] at hnat
  omega

/-- The invariant depends on the calls of the waiters, and on how many hold the
    reservation. -/
theorem Reserved.congr {waiters : List (Waiter Thread)}
    {leases : List (WorkspaceModeLease Thread)} {state : WorkspaceModeCoordinatorState}
    (h : coordinator.Reserved reservations)
    (hgeneration : state.nextModeGeneration = coordinator.state.nextModeGeneration)
    (hmode : ∀ mode, state.nextMode = some mode → coordinator.state.nextMode = some mode)
    (hwaiters : ∀ waiter ∈ waiters, ∃ before ∈ coordinator.waiters,
      waiter.call = before.call)
    (hcount : ∀ mode, state.nextMode = some mode → state.nextModeWaiters =
      waiters.countP fun waiter =>
        waiter.call.reserved == some coordinator.state.nextModeGeneration) :
    (⟨state, waiters, leases⟩ : WorkspaceModeCoordinator Thread).Reserved reservations := by
  refine ⟨hgeneration.trans h.generation, ?_, ?_, ?_⟩
  · intro waiter hwaiter generation hreserved
    obtain ⟨before, hbefore, hcall⟩ := hwaiters waiter hwaiter
    rw [hcall] at hreserved
    exact h.past before hbefore generation hreserved
  · intro mode hnext waiter hwaiter hreserved
    obtain ⟨before, hbefore, hcall⟩ := hwaiters waiter hwaiter
    rw [hcall] at hreserved ⊢
    simp only [hgeneration] at hreserved
    exact h.mode mode (hmode mode hnext) before hbefore hreserved
  · intro mode hnext
    simp only [hgeneration]
    exact hcount mode hnext

/-- The threads that stay parked keep their reservations when nothing is reserved. -/
theorem Reserved.of_none {waiters : List (Waiter Thread)}
    {leases : List (WorkspaceModeLease Thread)} {state : WorkspaceModeCoordinatorState}
    (h : coordinator.Reserved reservations)
    (hgeneration : state.nextModeGeneration = coordinator.state.nextModeGeneration)
    (hnone : state.nextMode = none)
    (hwaiters : ∀ waiter ∈ waiters, ∃ before ∈ coordinator.waiters,
      waiter.call = before.call) :
    (⟨state, waiters, leases⟩ : WorkspaceModeCoordinator Thread).Reserved reservations := by
  have hnot : ∀ mode, state.nextMode ≠ some mode := by
    intro mode hmode
    rw [hnone] at hmode
    cases hmode
  exact h.congr hgeneration (fun mode hmode => absurd hmode (hnot mode)) hwaiters
    fun mode hmode => absurd hmode (hnot mode)

/-- A turn of one of the waiters keeps the reservation counted. -/
theorem Reserved.takeTurn (h : (coordinator.withWaiter waiter rest).Reserved reservations)
    (hlt : reservationsAfter reservations coordinator
      (coordinator.takeTurn rest waiter flag) < 2 ^ 64) :
    (coordinator.takeTurn rest waiter flag).Reserved
      (reservationsAfter reservations coordinator (coordinator.takeTurn rest waiter flag)) := by
  have hrest : ∀ notifyAll, ∀ other ∈ notifyWaiters notifyAll rest,
      ∃ before ∈ (coordinator.withWaiter waiter rest).waiters, other.call = before.call := by
    intro notifyAll other hother
    obtain ⟨before, hbefore, hcall, -⟩ := mem_notifyWaiters hother
    exact ⟨before, List.mem_cons_of_mem _ hbefore, hcall⟩
  have hagain : ∀ again ∈ notifyWaiters false rest ++
      [({ waiter with notified := false } : Waiter Thread)],
      ∃ before ∈ (coordinator.withWaiter waiter rest).waiters, again.call = before.call := by
    intro again hmem
    cases List.mem_append.mp hmem with
    | inl hold => exact hrest false again hold
    | inr hlast =>
      rw [List.mem_singleton.mp hlast]
      exact ⟨waiter, List.mem_cons_self, rfl⟩
  have hcount : ∀ notifyAll generation, (notifyWaiters notifyAll rest).countP
      (fun waiter => waiter.call.reserved == some generation) =
        rest.countP fun waiter => waiter.call.reserved == some generation :=
    fun notifyAll generation => countP_notifyWaiters (·.reserved == some generation) notifyAll rest
  cases hcall : waiter.call with
  | shared mode reserved =>
    have hspec := sharedTurn_spec hcall coordinator.state flag
    generalize hturn : waiter.call.turn coordinator.state flag = result at hspec
    cases hspec with
    | leave hnot =>
      rw [takeTurn_cancelled hturn, reservationsAfter_same (by rfl)]
      apply h.congr rfl (fun _ hmode => hmode) (hrest false)
      intro next hnext
      -- The thread that leaves does not hold the reservation.
      have hother : ¬(waiter.call.reserved == some coordinator.state.nextModeGeneration) = true := by
        intro hholds
        have hmode := h.mode next hnext waiter List.mem_cons_self (beq_iff_eq.mp hholds)
        rw [hcall] at hmode hholds
        cases hmode
        exact hnot hnext (beq_iff_eq.mp hholds)
      rw [hcount]
      exact (h.count next hnext).trans (List.countP_cons_of_neg hother)
    | release hnext hreserved =>
      rw [takeTurn_cancelled hturn, reservationsAfter_same (by rfl)]
      have hholds : (waiter.call.reserved == some coordinator.state.nextModeGeneration) = true := by
        rw [hcall]
        exact beq_iff_eq.mpr hreserved
      have hcounted : coordinator.state.nextModeWaiters = _ :=
        (h.count mode hnext).trans (List.countP_cons_of_pos hholds)
      refine h.congr rfl ?_ (hrest true) ?_
      · intro next heq
        simp only at heq
        split at heq
        · cases heq
        · cases heq
          exact hnext
      · intro next _
        rw [hcount]
        show coordinator.state.nextModeWaiters - 1 = _
        rw [hcounted, Nat.add_sub_cancel]
    | start hstart =>
      rw [takeTurn_acquired hturn, reservationsAfter_same (by rfl)]
      exact h.of_none rfl rfl (hrest false)
    | join hjoin hleases =>
      rw [takeTurn_acquired hturn, reservationsAfter_same (by rfl)]
      exact h.of_none rfl (canJoin_eq_true.mp hjoin).2.2.2 (hrest false)
    | wait hstart hjoin hwait =>
      rw [takeTurn_parked hturn, reservationsAfter_same (by rfl), ← hcall]
      apply h.congr rfl (fun _ hmode => hmode) hagain
      intro next hnext
      rw [List.countP_append, hcount, List.countP_singleton]
      exact (h.count next hnext).trans List.countP_cons
    | reserve hfree hnone hmode hnext hleases =>
      rw [takeTurn_parked hturn, reservationsAfter, if_neg (generation_succ_ne _)] at hlt ⊢
      have hgeneration : coordinator.state.nextModeGeneration = UInt64.ofNat reservations :=
        h.generation
      -- No other thread has the new generation.
      have hfresh : ∀ other ∈ notifyWaiters false rest,
          other.call.reserved ≠ some (coordinator.state.nextModeGeneration + 1) := by
        intro other hother hreserved
        obtain ⟨before, hbefore, heq⟩ := hrest false other hother
        rw [heq] at hreserved
        obtain ⟨earlier, hle, hsame⟩ := h.past before hbefore _ hreserved
        rw [hgeneration] at hsame
        exact generation_ne hle hlt hsame.symm
      refine ⟨?_, ?_, ?_, ?_⟩
      · show coordinator.state.nextModeGeneration + 1 = _
        rw [hgeneration, UInt64.ofNat_add]
        rfl
      · intro other hother generation hreserved
        cases List.mem_append.mp hother with
        | inl hold =>
          obtain ⟨before, hbefore, heq⟩ := hrest false other hold
          rw [heq] at hreserved
          obtain ⟨earlier, hle, hsame⟩ := h.past before hbefore _ hreserved
          exact ⟨earlier, Nat.le_succ_of_le hle, hsame⟩
        | inr hnew =>
          rw [List.mem_singleton.mp hnew] at hreserved
          refine ⟨reservations + 1, Nat.le_refl _, ?_⟩
          rw [UInt64.ofNat_add, ← hgeneration]
          exact (Option.some.inj hreserved).symm
      · intro next heq other hother hreserved
        cases heq
        cases List.mem_append.mp hother with
        | inl hold => exact absurd hreserved (hfresh other hold)
        | inr hnew =>
          rw [List.mem_singleton.mp hnew]
          rfl
      · intro next heq
        have hnobody : (notifyWaiters false rest).countP (fun other => other.call.reserved ==
            some (coordinator.state.nextModeGeneration + 1)) = 0 := by
          rw [List.countP_eq_zero]
          intro other hother
          rw [beq_iff_eq]
          exact hfresh other hother
        rw [List.countP_append, hnobody]
        simp [AcquireCall.reserved]
    | joinReservation hfree hnone hmode hnext hleases hreserved =>
      rw [takeTurn_parked hturn, reservationsAfter_same (by rfl)]
      have hother : ¬(waiter.call.reserved == some coordinator.state.nextModeGeneration) = true := by
        rw [hcall, beq_iff_eq]
        exact hreserved
      have hcounted : coordinator.state.nextModeWaiters = _ :=
        (h.count mode hnext).trans (List.countP_cons_of_neg hother)
      refine ⟨h.generation, ?_, ?_, ?_⟩
      · intro other hmem generation hholds
        cases List.mem_append.mp hmem with
        | inl hold =>
          obtain ⟨before, hbefore, heq⟩ := hrest false other hold
          rw [heq] at hholds
          exact h.past before hbefore _ hholds
        | inr hnew =>
          rw [List.mem_singleton.mp hnew] at hholds
          exact ⟨reservations, Nat.le_refl _, (Option.some.inj hholds).symm.trans h.generation⟩
      · intro next heq other hmem hholds
        cases List.mem_append.mp hmem with
        | inl hold =>
          obtain ⟨before, hbefore, hsame⟩ := hrest false other hold
          rw [hsame] at hholds ⊢
          exact h.mode next heq before hbefore hholds
        | inr hnew =>
          rw [List.mem_singleton.mp hnew]
          exact hnext.symm.trans heq
      · intro next heq
        show coordinator.state.nextModeWaiters + 1 = _
        rw [List.countP_append, hcount, hcounted]
        simp [AcquireCall.reserved, withWaiter]
  | exclusive =>
    have hnobody : ∀ generation, ¬(waiter.call.reserved == some generation) = true := by
      intro generation
      rw [hcall]
      simp [AcquireCall.reserved]
    have hcounted : ∀ next, coordinator.state.nextMode = some next →
        coordinator.state.nextModeWaiters = rest.countP fun waiter =>
          waiter.call.reserved == some coordinator.state.nextModeGeneration :=
      fun next hnext => (h.count next hnext).trans (List.countP_cons_of_neg (hnobody _))
    have hspec := exclusiveTurn_spec hcall coordinator.state flag
    generalize hturn : waiter.call.turn coordinator.state flag = result at hspec
    cases hspec with
    | leave =>
      rw [takeTurn_cancelled hturn, reservationsAfter_same (by rfl)]
      refine h.congr rfl (fun _ hmode => hmode) (hrest true) ?_
      intro next hnext
      rw [hcount]
      exact hcounted next hnext
    | wait hbusy =>
      rw [takeTurn_parked hturn, reservationsAfter_same (by rfl), ← hcall]
      refine h.congr rfl (fun _ hmode => hmode) hagain ?_
      intro next hnext
      rw [List.countP_append, hcount, List.countP_singleton]
      exact (h.count next hnext).trans List.countP_cons
    | acquire hfree hzero =>
      rw [takeTurn_acquired hturn, reservationsAfter_same (by rfl)]
      refine h.congr rfl (fun _ hmode => hmode) (hrest false) ?_
      intro next hnext
      rw [hcount]
      exact hcounted next hnext

/-- A thread that has entered a call has reserved nothing. -/
theorem Reserved.enter (h : coordinator.Reserved reservations)
    (hwaiter : waiter.call.reserved = none) :
    (coordinator.withWaiter waiter coordinator.waiters).Reserved reservations := by
  have hnobody : ∀ generation, ¬(waiter.call.reserved == some generation) = true := by
    intro generation
    rw [hwaiter]
    simp
  refine ⟨h.generation, ?_, ?_, ?_⟩
  · intro other hother generation hreserved
    cases List.mem_cons.mp hother with
    | inl heq =>
      rw [heq, hwaiter] at hreserved
      cases hreserved
    | inr hold => exact h.past other hold generation hreserved
  · intro next hnext other hother hreserved
    cases List.mem_cons.mp hother with
    | inl heq =>
      rw [heq, hwaiter] at hreserved
      cases hreserved
    | inr hold => exact h.mode next hnext other hold hreserved
  · intro next hnext
    refine (h.count next hnext).trans (List.countP_cons_of_neg ?_).symm
    exact hnobody _

theorem Reserved.dropLease {leases : List (WorkspaceModeLease Thread)}
    {lease : WorkspaceModeLease Thread} (h : coordinator.Reserved reservations) :
    (coordinator.dropLease leases lease).Reserved
      (reservationsAfter reservations coordinator (coordinator.dropLease leases lease)) := by
  have hwaiters : ∀ notifyAll, ∀ other ∈ notifyWaiters notifyAll coordinator.waiters,
      ∃ before ∈ coordinator.waiters, other.call = before.call := by
    intro notifyAll other hother
    obtain ⟨before, hbefore, hcall, -⟩ := mem_notifyWaiters hother
    exact ⟨before, hbefore, hcall⟩
  have hcount := fun notifyAll generation =>
    countP_notifyWaiters (·.reserved == some generation) notifyAll coordinator.waiters
  cases hkind : lease.kind with
  | shared mode =>
    rw [dropLease_shared hkind, reservationsAfter_same (by rfl)]
    refine h.congr rfl (fun _ hmode => hmode) (hwaiters _) ?_
    intro next hnext
    rw [hcount]
    exact h.count next hnext
  | exclusive =>
    rw [dropLease_exclusive hkind, reservationsAfter_same (by rfl)]
    refine h.congr rfl (fun _ hmode => hmode) (hwaiters true) ?_
    intro next hnext
    rw [hcount]
    exact h.count next hnext

theorem Reserved.tryAcquireShared (h : coordinator.Reserved reservations) (thread : Thread)
    (mode : Bool) :
    (coordinator.tryAcquireShared thread mode).Reserved (reservationsAfter reservations coordinator
      (coordinator.tryAcquireShared thread mode)) := by
  have hwaiters : ∀ waiter ∈ coordinator.waiters,
      ∃ before ∈ coordinator.waiters, waiter.call = before.call :=
    fun waiter hwaiter => ⟨waiter, hwaiter, rfl⟩
  obtain heq | ⟨hstart, heq⟩ | ⟨hjoin, -, heq⟩ := tryAcquireShared_cases coordinator thread mode
  · rw [heq, reservationsAfter_same (by rfl)]
    exact h
  · rw [heq, reservationsAfter_same (by rfl)]
    exact h.of_none rfl rfl hwaiters
  · rw [heq, reservationsAfter_same (by rfl)]
    exact h.of_none rfl (canJoin_eq_true.mp hjoin).2.2.2 hwaiters

theorem Reserved.withWaiter {front back : List (Waiter Thread)}
    (h : coordinator.Reserved reservations)
    (hwaiters : coordinator.waiters = front ++ waiter :: back) :
    (coordinator.withWaiter waiter (front ++ back)).Reserved reservations := by
  have hperm : coordinator.waiters.Perm (waiter :: (front ++ back)) :=
    hwaiters ▸ List.perm_middle
  refine h.congr rfl (fun _ hmode => hmode) ?_ ?_
  · intro other hother
    exact ⟨other, hperm.mem_iff.mpr hother, rfl⟩
  · intro next hnext
    exact (h.count next hnext).trans (hperm.countP_eq _)

/-- Every step keeps the reservation counted. -/
theorem Reserved.step {event : LeaseEvent Thread} {next : WorkspaceModeCoordinator Thread}
    (h : coordinator.Reserved reservations) (hstep : LeaseStep coordinator event next)
    (hlt : reservationsAfter reservations coordinator next < 2 ^ 64) :
    next.Reserved (reservationsAfter reservations coordinator next) := by
  cases hstep with
  | acquireShared thread mode cancellable flag hflag =>
    have hentered : (coordinator.withWaiter ⟨thread, cancellable, .shared mode none, false⟩
        coordinator.waiters).Reserved reservations := h.enter rfl
    exact hentered.takeTurn hlt
  | acquireExclusive thread cancellable entryFlag flag hentry hflag =>
    cases entryFlag with
    | true =>
      show coordinator.Reserved (reservationsAfter reservations coordinator coordinator)
      rw [reservationsAfter_same rfl]
      exact h
    | false =>
      have hcounted : coordinator.countExclusive.Reserved reservations :=
        ⟨h.generation, h.past, h.mode, h.count⟩
      have hentered : (coordinator.countExclusive.withWaiter
          ⟨thread, cancellable, .exclusive, false⟩ coordinator.waiters).Reserved reservations :=
        hcounted.enter rfl
      exact hentered.takeTurn hlt
  | tryAcquireShared thread mode => exact h.tryAcquireShared thread mode
  | wake front back waiter flag hwaiters hflag => exact (h.withWaiter hwaiters).takeTurn hlt
  | dropLease front back lease hleases => exact h.dropLease

end WorkspaceModeCoordinator

end Ivygrep.Native
