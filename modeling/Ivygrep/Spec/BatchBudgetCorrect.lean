import Ivygrep.ForStd.List
import Ivygrep.Native.BatchBudget

/-!
# The batch budget never over-commits

The held bytes are those of the live reservations in every run, and they fit unless one reservation
has them all. A call waits only while it must, or while a notification is pending.

## Key results

- `Balanced.step`: the bytes in one step
- `WakesPending.step`: the waiting calls in one step
- `batchBudget_correct`: every run
-/

namespace Ivygrep.Native

open ForStd Relation

namespace BatchBudget

variable {budget next : BatchBudget}

/-! ## The bytes -/

/-- The bytes that a call holds. -/
def heldBytes (call : BudgetCall) : Nat := if call.stage = .reserved then call.bytes.toNat else 0

/-- Whether a call holds any bytes, as a number. -/
def holds (call : BudgetCall) : Nat := if heldBytes call = 0 then 0 else 1

theorem sum_live (budget : BatchBudget) :
    (budget.live.map UInt64.toNat).sum = (budget.calls.map heldBytes).sum := by
  unfold live
  induction budget.calls with
  | nil => rfl
  | cons call calls ih =>
    rw [List.map_cons, List.sum_cons, ← ih]
    by_cases hstage : call.stage = .reserved <;> simp [heldBytes, hstage]

theorem count_live (budget : BatchBudget) :
    (budget.live.filter (· ≠ 0)).length = (budget.calls.map holds).sum := by
  unfold live
  induction budget.calls with
  | nil => rfl
  | cons call calls ih =>
    by_cases hstage : call.stage = .reserved
    · by_cases hbytes : call.bytes = 0
      · simpa [holds, heldBytes, hstage, hbytes] using ih
      · have hne : call.bytes.toNat ≠ 0 := fun h => hbytes (UInt64.toNat_inj.mp h)
        rw [List.map_cons, List.sum_cons, ← ih]
        simp [holds, heldBytes, hstage, hbytes, hne, Nat.add_comm]
    · simpa [holds, heldBytes, hstage] using ih

/-- No bytes are held exactly when no call holds any. -/
theorem sum_heldBytes_eq_zero {calls : List BudgetCall} :
    (calls.map heldBytes).sum = 0 ↔ (calls.map holds).sum = 0 := by
  simp only [List.sum_eq_zero_iff_forall_eq_nat, List.forall_mem_map, holds]
  simp

theorem room_toNat (budget : BatchBudget) :
    budget.room.toNat = budget.maxBytes.toNat - budget.held.toNat := by
  unfold room
  split
  · next hle => exact UInt64.toNat_sub_of_le _ _ hle
  · next hgt =>
    rw [UInt64.le_iff_toNat_le] at hgt
    show 0 = _
    omega

/-- The held bytes are those of the live reservations. They fit, or one call holds them all. -/
structure Balanced (budget : BatchBudget) : Prop where
  counted : budget.held.toNat = (budget.calls.map heldBytes).sum
  bounded : budget.held.toNat ≤ budget.maxBytes.toNat ∨ (budget.calls.map holds).sum = 1

theorem heldBytes_wake (call : BudgetCall) : heldBytes call.wake = heldBytes call := by
  unfold BudgetCall.wake
  split
  · next hwaiting => simp [heldBytes, hwaiting]
  · rfl

theorem Balanced.notifyAll (h : budget.Balanced) : budget.notifyAll.Balanced := by
  have hbytes : ∀ calls : List BudgetCall,
      (calls.map BudgetCall.wake).map heldBytes = calls.map heldBytes := by
    intro calls
    simp [heldBytes_wake]
  have hholds : ∀ calls : List BudgetCall,
      (calls.map BudgetCall.wake).map holds = calls.map holds := by
    intro calls
    simp [holds, heldBytes_wake]
  refine ⟨?_, ?_⟩
  · show budget.held.toNat = ((budget.calls.map BudgetCall.wake).map heldBytes).sum
    rw [hbytes]
    exact h.counted
  · show _ ∨ ((budget.calls.map BudgetCall.wake).map holds).sum = 1
    rw [hholds]
    exact h.bounded

/-- A stage in which the call holds as much as before. -/
theorem Balanced.setStage {index : Nat} {call : BudgetCall} {stage : AcquireStage}
    (h : budget.Balanced) (hcall : budget.calls[index]? = some call)
    (hsame : heldBytes { call with stage := stage } = heldBytes call) :
    (budget.setStage index call stage).Balanced := by
  have hsum := sum_map_set heldBytes (b := { call with stage := stage }) hcall
  have hcount := sum_map_set holds (b := { call with stage := stage }) hcall
  have hholds : holds { call with stage := stage } = holds call := by rw [holds, hsame, holds]
  refine ⟨?_, ?_⟩
  · show budget.held.toNat = ((budget.calls.set index _).map heldBytes).sum
    rw [h.counted]
    omega
  · show _ ∨ ((budget.calls.set index _).map holds).sum = 1
    rcases h.bounded with hfits | halone
    · exact .inl hfits
    · exact .inr (by omega)

theorem Balanced.check {index : Nat} {call : BudgetCall} (h : budget.Balanced)
    (hcall : budget.calls[index]? = some call)
    (hstage : call.stage = .calling ∨ call.stage = .woken) : (budget.check index call).Balanced := by
  have hnone : heldBytes call = 0 := by
    rcases hstage with hstage | hstage <;> simp [heldBytes, hstage]
  unfold BatchBudget.check
  split
  · exact h.setStage hcall (by rw [hnone]; rfl)
  · split
    · exact h.setStage hcall (by rw [hnone]; rfl)
    · next hmust hstopped =>
      have hsum := sum_map_set heldBytes (b := { call with stage := .reserved }) hcall
      have hcount := sum_map_set holds (b := { call with stage := .reserved }) hcall
      have hnow : heldBytes { call with stage := .reserved } = call.bytes.toNat := rfl
      have hnowHolds : holds { call with stage := .reserved } =
          if call.bytes.toNat = 0 then 0 else 1 := rfl
      have hbefore : holds call = 0 := by simp [holds, hnone]
      -- The request fits, or nothing is held.
      have hfits : budget.held.toNat = 0 ∨
          call.bytes.toNat ≤ budget.maxBytes.toNat - budget.held.toNat := by
        rw [← room_toNat]
        simp only [mustWait, Bool.not_eq_true] at hmust hstopped
        simp only [hstopped, Bool.not_false, Bool.true_and, Bool.and_eq_false_iff,
          decide_eq_false_iff_not, UInt64.lt_iff_toNat_lt] at hmust
        rcases hmust with hzero | hroom
        · exact .inl (by simpa using hzero)
        · exact .inr (by omega)
      have hmax := budget.maxBytes.toNat_lt
      have hbytes := call.bytes.toNat_lt
      have hheld := budget.held.toNat_lt
      have hcounted := h.counted
      have hadd : (budget.held + call.bytes).toNat = budget.held.toNat + call.bytes.toNat := by
        rw [UInt64.toNat_add]
        omega
      refine ⟨?_, ?_⟩
      · show (budget.held + call.bytes).toNat = ((budget.calls.set index _).map heldBytes).sum
        rw [hadd]
        omega
      · show (budget.held + call.bytes).toNat ≤ budget.maxBytes.toNat ∨
          ((budget.calls.set index _).map holds).sum = 1
        rw [hadd]
        rcases hfits with hempty | hroom
        · have hnobody := sum_heldBytes_eq_zero.mp (hcounted.symm.trans hempty)
          by_cases hbytes : call.bytes.toNat = 0
          · rw [hempty, hbytes]
            exact .inl (Nat.zero_le _)
          · rw [if_neg hbytes] at hnowHolds
            exact .inr (by omega)
        · rcases h.bounded with hle | halone
          · exact .inl (by omega)
          · by_cases hle : budget.held.toNat ≤ budget.maxBytes.toNat
            · exact .inl (by omega)
            · rw [if_pos (by omega)] at hnowHolds
              exact .inr (by omega)

theorem Balanced.release {index : Nat} {call : BudgetCall} (h : budget.Balanced)
    (hcall : budget.calls[index]? = some call) (hstage : call.stage = .reserved) :
    (budget.release index call).Balanced := by
  have hsum := sum_map_set heldBytes (b := { call with stage := .dropping }) hcall
  have hcount := sum_map_set holds (b := { call with stage := .dropping }) hcall
  have hbefore : heldBytes call = call.bytes.toNat := by simp [heldBytes, hstage]
  have hbeforeHolds : holds call = if call.bytes.toNat = 0 then 0 else 1 := by
    rw [holds, hbefore]
  have hnow : heldBytes { call with stage := .dropping } = 0 := rfl
  have hnowHolds : holds { call with stage := .dropping } = 0 := rfl
  have hcounted := h.counted
  have hle : call.bytes ≤ budget.held := by
    rw [UInt64.le_iff_toNat_le]
    omega
  have hsub : (budget.held - call.bytes).toNat = budget.held.toNat - call.bytes.toNat :=
    UInt64.toNat_sub_of_le _ _ hle
  refine ⟨?_, ?_⟩
  · show (budget.held - call.bytes).toNat = ((budget.calls.set index _).map heldBytes).sum
    rw [hsub]
    omega
  · show (budget.held - call.bytes).toNat ≤ budget.maxBytes.toNat ∨
      ((budget.calls.set index _).map holds).sum = 1
    rw [hsub]
    rcases h.bounded with hfits | halone
    · exact .inl (by omega)
    · by_cases hbytes : call.bytes.toNat = 0
      · rw [if_pos hbytes] at hbeforeHolds
        exact .inr (by omega)
      · -- The only call with bytes has dropped them.
        rw [if_neg hbytes] at hbeforeHolds
        have hnobody : ((budget.calls.set index { call with stage := .dropping }).map holds).sum = 0 := by
          omega
        have hnothing := sum_heldBytes_eq_zero.mpr hnobody
        exact .inl (by omega)

theorem Balanced.step (h : budget.Balanced) (hstep : BudgetStep budget next) : next.Balanced := by
  cases hstep with
  | acquire bytes =>
    refine ⟨?_, ?_⟩
    · simpa [heldBytes] using h.counted
    · simpa [holds, heldBytes] using h.bounded
  | check index call hcall hstage => exact h.check hcall hstage
  | release index call hcall hstage => exact h.release hcall hstage
  | notifyDrop index call hcall hstage =>
    exact (h.setStage hcall (by simp [heldBytes, hstage])).notifyAll
  | stop => exact ⟨h.counted, h.bounded⟩
  | notifyStop hstopping => exact Balanced.notifyAll ⟨h.counted, h.bounded⟩

/-! ## The waiting calls -/

/-- A drop or a `stop` will notify. -/
def NotificationPending (budget : BatchBudget) : Prop :=
  0 < budget.stopping ∨ ∃ call ∈ budget.calls, call.stage = .dropping

/-- A call that need not wait will be notified. -/
def WakesPending (budget : BatchBudget) : Prop :=
  ∀ call ∈ budget.calls, call.stage = .waiting → budget.mustWait call.bytes = false →
    budget.NotificationPending

theorem wakesPending_notifyAll (budget : BatchBudget) : budget.notifyAll.WakesPending := by
  intro call hcall hwaiting
  obtain ⟨before, -, rfl⟩ := List.mem_map.mp hcall
  unfold BudgetCall.wake at hwaiting
  split at hwaiting
  · cases hwaiting
  · next hnot => exact absurd hwaiting hnot

theorem NotificationPending.set {index : Nat} {call : BudgetCall} {stage : AcquireStage}
    (h : budget.NotificationPending) (hcall : budget.calls[index]? = some call)
    (hstage : call.stage ≠ .dropping) : (budget.setStage index call stage).NotificationPending := by
  rcases h with hstopping | ⟨dropping, hmem, hdropping⟩
  · exact .inl hstopping
  · obtain ⟨place, hplace⟩ := List.mem_iff_getElem?.mp hmem
    have hne : index ≠ place := by
      rintro rfl
      rw [hcall] at hplace
      cases hplace
      exact hstage hdropping
    refine .inr ⟨dropping, List.mem_iff_getElem?.mpr ⟨place, ?_⟩, hdropping⟩
    show (budget.calls.set index _)[place]? = some dropping
    rw [List.getElem?_set_ne hne, hplace]

/-- More held bytes keep a call waiting. -/
theorem mustWait_of_le {bytes : UInt64} (hmust : budget.mustWait bytes)
    (hmax : next.maxBytes = budget.maxBytes) (hstopped : next.stopped = budget.stopped)
    (hle : budget.held.toNat ≤ next.held.toNat) : next.mustWait bytes := by
  simp only [mustWait, Bool.and_eq_true, decide_eq_true_eq, UInt64.lt_iff_toNat_lt,
    room_toNat] at hmust ⊢
  rw [hmax, hstopped]
  obtain ⟨⟨hrunning, hpos⟩, hroom⟩ := hmust
  exact ⟨⟨hrunning, Nat.lt_of_lt_of_le hpos hle⟩, by omega⟩

/-- A critical section of `acquire` neither takes a notification away nor gives bytes back. -/
theorem WakesPending.check {index : Nat} {call : BudgetCall} (h : budget.WakesPending)
    (hbalanced : budget.Balanced) (hcall : budget.calls[index]? = some call)
    (hstage : call.stage = .calling ∨ call.stage = .woken) :
    (budget.check index call).WakesPending := by
  have hnot : call.stage ≠ .dropping := by
    rcases hstage with hstage | hstage <;> simp [hstage]
  have hafter := hbalanced.check hcall hstage
  have hold : ∀ {stage : AcquireStage}, ∀ other ∈ (budget.setStage index call stage).calls,
      other.stage = .waiting → other ∈ budget.calls ∨ other = { call with stage := stage } :=
    fun other hother _ => List.mem_or_eq_of_mem_set hother
  unfold BatchBudget.check at hafter ⊢
  split
  · next hmust =>
    intro other hother hwaiting hfree
    rcases hold other hother hwaiting with hmem | rfl
    · exact (h other hmem hwaiting hfree).set hcall hnot
    · have hfree' : budget.mustWait call.bytes = false := hfree
      simp [hfree'] at hmust
  · split
    · intro other hother hwaiting hfree
      rcases hold other hother hwaiting with hmem | rfl
      · exact (h other hmem hwaiting hfree).set hcall hnot
      · cases hwaiting
    · next hmust hstopped =>
      rw [if_neg hmust, if_neg hstopped] at hafter
      intro other hother hwaiting hfree
      rcases hold other hother hwaiting with hmem | rfl
      · by_cases hstill : budget.mustWait other.bytes
        · -- The held bytes have grown.
          have hsum := sum_map_set heldBytes (b := { call with stage := .reserved }) hcall
          have hnone : heldBytes call = 0 := by
            rcases hstage with hstage | hstage <;> simp [heldBytes, hstage]
          have hbefore := hbalanced.counted
          have hnow : (budget.held + call.bytes).toNat =
              ((budget.calls.set index { call with stage := .reserved }).map heldBytes).sum :=
            hafter.counted
          have hgrown : budget.held.toNat ≤ (budget.held + call.bytes).toNat := by omega
          have hmustStill :
              { budget.setStage index call .reserved with
                held := budget.held + call.bytes }.mustWait other.bytes :=
            mustWait_of_le hstill rfl rfl hgrown
          simp [hfree] at hmustStill
        · have hpending := h other hmem hwaiting (by simpa using hstill)
          exact hpending.set hcall hnot
      · cases hwaiting

theorem WakesPending.step (h : budget.WakesPending) (hbalanced : budget.Balanced)
    (hstep : BudgetStep budget next) : next.WakesPending := by
  cases hstep with
  | acquire bytes =>
    intro call hcall hwaiting hfree
    rcases List.mem_append.mp hcall with hmem | hnew
    · rcases h call hmem hwaiting hfree with hstopping | ⟨dropping, hdropping, hstage⟩
      · exact .inl hstopping
      · exact .inr ⟨dropping, List.mem_append_left _ hdropping, hstage⟩
    · obtain rfl := List.mem_singleton.mp hnew
      cases hwaiting
  | check index call hcall hstage => exact h.check hbalanced hcall hstage
  | release index call hcall hstage =>
    have hlt := (List.getElem?_eq_some_iff.mp hcall).1
    exact fun _ _ _ _ => .inr ⟨_, List.mem_set hlt _, rfl⟩
  | notifyDrop index call hcall hstage => exact wakesPending_notifyAll _
  | stop => exact fun _ _ _ _ => .inl (Nat.succ_pos _)
  | notifyStop hstopping => exact wakesPending_notifyAll _

/-- A pending notification wakes every call that waits. -/
theorem NotificationPending.exists_wake (h : budget.NotificationPending) :
    ∃ next, BudgetStep budget next ∧
      ∀ (index : Nat) (call : BudgetCall), budget.calls[index]? = some call →
        call.stage = .waiting → next.calls[index]? = some { call with stage := .woken } := by
  rcases h with hstopping | ⟨dropping, hmem, hdropping⟩
  · refine ⟨_, .notifyStop budget hstopping, fun index call hcall hwaiting => ?_⟩
    show (budget.calls.map BudgetCall.wake)[index]? = _
    simp [hcall, BudgetCall.wake, hwaiting]
  · obtain ⟨place, hplace⟩ := List.mem_iff_getElem?.mp hmem
    refine ⟨_, .notifyDrop budget place dropping hplace hdropping,
      fun index call hcall hwaiting => ?_⟩
    have hne : place ≠ index := by
      rintro rfl
      rw [hplace] at hcall
      cases hcall
      rw [hdropping] at hwaiting
      cases hwaiting
    show ((budget.calls.set place _).map BudgetCall.wake)[index]? = _
    simp [List.getElem?_set_ne hne, hcall, BudgetCall.wake, hwaiting]

/-! ## After `stop` -/

/-- A call has its reservation. -/
def Reserved (budget : BatchBudget) (index : Nat) (bytes : UInt64) : Prop :=
  budget.calls[index]? = some ⟨bytes, .reserved⟩

theorem Reserved.of_setStage {place index : Nat} {call : BudgetCall} {stage : AcquireStage}
    {bytes : UInt64} (h : (budget.setStage place call stage).Reserved index bytes)
    (hstage : stage ≠ .reserved) : budget.Reserved index bytes := by
  have hset : (budget.calls.set place { call with stage := stage })[index]? =
      some ⟨bytes, .reserved⟩ := h
  by_cases hplace : place = index
  · subst hplace
    obtain ⟨hlt, heq⟩ := List.getElem?_eq_some_iff.mp hset
    rw [List.getElem_set_self] at heq
    exact absurd (congrArg BudgetCall.stage heq) hstage
  · rwa [List.getElem?_set_ne hplace] at hset

theorem Reserved.of_notifyAll {index : Nat} {bytes : UInt64}
    (h : budget.notifyAll.Reserved index bytes) : budget.Reserved index bytes := by
  have hmap : (budget.calls.map BudgetCall.wake)[index]? = some ⟨bytes, .reserved⟩ := h
  rw [List.getElem?_map] at hmap
  obtain ⟨call, hcall, heq⟩ := Option.map_eq_some_iff.mp hmap
  have hsame : call = ⟨bytes, .reserved⟩ := by
    unfold BudgetCall.wake at heq
    split at heq
    · cases heq
    · exact heq
  rw [Reserved, hcall, hsame]

/-- No step succeeds in acquiring once the budget is stopped. -/
theorem reserved_of_stopped (hstopped : budget.stopped) (hstep : BudgetStep budget next) :
    next.stopped ∧ ∀ index bytes, next.Reserved index bytes → budget.Reserved index bytes := by
  cases hstep with
  | acquire bytes =>
    refine ⟨hstopped, fun index bytes h => ?_⟩
    rcases getElem?_concat_eq_some (show (budget.calls ++ _)[index]? = _ from h) with hold | ⟨-, heq⟩
    · exact hold
    · cases heq
  | check index call hcall hstage =>
    have hmust : budget.mustWait call.bytes = false := by simp [mustWait, hstopped]
    have hrefused : budget.check index call = budget.setStage index call .refused := by
      rw [BatchBudget.check, hmust, if_neg Bool.false_ne_true, if_pos hstopped]
    rw [hrefused]
    exact ⟨hstopped, fun _ _ h => h.of_setStage (by decide)⟩
  | release index call hcall hstage =>
    refine ⟨hstopped, fun place bytes h => ?_⟩
    have hset : (budget.setStage index call .dropping).Reserved place bytes := h
    exact hset.of_setStage (by decide)
  | notifyDrop index call hcall hstage =>
    exact ⟨hstopped, fun _ _ h => h.of_notifyAll.of_setStage (by decide)⟩
  | stop => exact ⟨rfl, fun _ _ h => h⟩
  | notifyStop hstopping => exact ⟨hstopped, fun _ _ h => Reserved.of_notifyAll h⟩

theorem reserved_of_run (hstopped : budget.stopped) (hrun : ReflTransGen BudgetStep budget next) :
    next.stopped ∧ ∀ index bytes, next.Reserved index bytes → budget.Reserved index bytes := by
  induction hrun with
  | refl => exact ⟨hstopped, fun _ _ h => h⟩
  | tail _ hstep ih =>
    obtain ⟨hstill, hold⟩ := reserved_of_stopped ih.1 hstep
    exact ⟨hstill, fun index bytes h => ih.2 index bytes (hold index bytes h)⟩

/-! ## Runs -/

theorem run_invariant {maxBytes : UInt64} (h : ReflTransGen BudgetStep (new maxBytes) budget) :
    budget.Balanced ∧ budget.WakesPending ∧ budget.maxBytes = maxBytes := by
  induction h with
  | refl => exact ⟨⟨rfl, .inl (Nat.zero_le _)⟩, nofun, rfl⟩
  | tail _ hstep ih =>
    obtain ⟨hbalanced, hwakes, hmax⟩ := ih
    refine ⟨hbalanced.step hstep, hwakes.step hbalanced hstep, ?_⟩
    cases hstep with
    | check index call =>
      unfold BatchBudget.check
      repeat' split
      all_goals exact hmax
    | _ => exact hmax

/-- In every run the held bytes are those of the live reservations, which fit unless one of them
    has all bytes. After `stop` no call gets a reservation. A call that waits although it need not
    has a notification pending, which wakes it. -/
theorem batchBudget_correct {maxBytes : UInt64}
    (h : ReflTransGen BudgetStep (new maxBytes) budget) :
    budget.held.toNat = (budget.live.map UInt64.toNat).sum ∧
      ((budget.live.map UInt64.toNat).sum ≤ maxBytes.toNat ∨
        (budget.live.filter (· ≠ 0)).length = 1) ∧
      (budget.stopped → ∀ later, ReflTransGen BudgetStep budget later →
        ∀ index bytes, later.Reserved index bytes → budget.Reserved index bytes) ∧
      ∀ (index : Nat) (call : BudgetCall), budget.calls[index]? = some call →
        call.stage = .waiting → budget.mustWait call.bytes = false →
          budget.NotificationPending ∧ ∃ next, BudgetStep budget next ∧
            next.calls[index]? = some { call with stage := .woken } := by
  obtain ⟨hbalanced, hwakes, rfl⟩ := run_invariant h
  have hcounted := hbalanced.counted
  rw [← sum_live] at hcounted
  refine ⟨hcounted, ?_, fun hstopped later hrun => (reserved_of_run hstopped hrun).2, ?_⟩
  · rw [← hcounted, count_live]
    exact hbalanced.bounded
  · intro index call hcall hwaiting hfree
    have hpending := hwakes call (List.mem_of_getElem? hcall) hwaiting hfree
    obtain ⟨next, hstep, hwoken⟩ := hpending.exists_wake
    exact ⟨hpending, next, hstep, hwoken index call hcall hwaiting⟩

/-- Of two calls for 8 of 10 bytes the first has dropped its reservation, and the second still
    waits. -/
theorem batchBudget_correct_dropped :
    NotificationPending ⟨10, 0, false, [⟨8, .dropping⟩, ⟨8, .waiting⟩], 0⟩ := by
  have hrun : ReflTransGen BudgetStep (new 10)
      ⟨10, 0, false, [⟨8, .dropping⟩, ⟨8, .waiting⟩], 0⟩ :=
    ((((ReflTransGen.refl.tail (.acquire _ 8)).tail (.check _ 0 ⟨8, .calling⟩ rfl (.inl rfl))).tail
      (.acquire _ 8)).tail (.check _ 1 ⟨8, .calling⟩ rfl (.inl rfl))).tail
        (.release _ 0 ⟨8, .reserved⟩ rfl rfl)
  exact ((batchBudget_correct hrun).2.2.2 1 ⟨8, .waiting⟩ rfl rfl rfl).1

end BatchBudget

end Ivygrep.Native
