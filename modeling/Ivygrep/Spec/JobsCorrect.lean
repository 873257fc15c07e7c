import Ivygrep.Native.Jobs

/-!
# Stale jobs cannot overwrite the current one

A record of a kind has a nonce exactly while the job that it was issued to is current. So the
comparison of nonces in a transaction decides what the history of the ledger says.
-/

namespace Ivygrep.Native

namespace JobLedger

/-- All records of the kind. -/
def recordsOf (ledger : JobLedger) (kind : JobKind) : List JobRecord :=
  ledger.jobs.filter fun job => job.kind = kind

/-- No two records have the same kind. -/
def AtMostOne (ledger : JobLedger) : Prop := (ledger.jobs.map JobRecord.kind).Nodup

/-- The nonce of the record of the kind. -/
def currentNonce (ledger : JobLedger) (kind : JobKind) : Option Str :=
  (ledger.get kind).bind JobRecord.nonce

variable {ledger : JobLedger} {record : JobRecord} {kind : JobKind}

theorem get_eq_head? (ledger : JobLedger) (kind : JobKind) :
    ledger.get kind = (ledger.recordsOf kind).head? :=
  (List.head?_filter ..).symm

theorem kind_of_get (h : ledger.get kind = some record) : record.kind = kind := by
  simpa using List.find?_some h

/-! ## `upsert` -/

theorem replaceFirst_spec (record : JobRecord) (jobs : List JobRecord) :
    (replaceFirst record jobs).map JobRecord.kind = jobs.map JobRecord.kind ∧
      ∀ kind ≠ record.kind, (replaceFirst record jobs).filter (·.kind = kind) =
        jobs.filter (·.kind = kind) := by
  induction jobs with
  | nil => exact ⟨rfl, fun _ _ => rfl⟩
  | cons job jobs ih =>
    unfold replaceFirst
    by_cases hjob : job.kind = record.kind
    · rw [if_pos hjob]
      refine ⟨by rw [List.map_cons, List.map_cons, hjob], fun kind hkind => ?_⟩
      rw [List.filter_cons, List.filter_cons, if_neg (by simpa using hkind.symm),
        if_neg (by simpa [hjob] using hkind.symm)]
    · rw [if_neg hjob]
      refine ⟨by rw [List.map_cons, List.map_cons, ih.1], fun kind hkind => ?_⟩
      rw [List.filter_cons, List.filter_cons, ih.2 kind hkind]

theorem find?_replaceFirst {jobs : List JobRecord}
    (h : (jobs.find? fun job => job.kind = record.kind).isSome) :
    (replaceFirst record jobs).find? (·.kind = record.kind) = some record := by
  induction jobs with
  | nil => simp at h
  | cons job jobs ih =>
    unfold replaceFirst
    by_cases hjob : job.kind = record.kind
    · rw [if_pos hjob, List.find?_cons_of_pos (by simp)]
    · rw [List.find?_cons_of_neg (by simpa using hjob)] at h
      rw [if_neg hjob, List.find?_cons_of_neg (by simpa using hjob), ih h]

theorem get_upsert_self (ledger : JobLedger) (record : JobRecord) :
    (ledger.upsert record).get record.kind = some record := by
  unfold upsert
  split
  · rename_i old hget
    exact find?_replaceFirst (Option.isSome_of_eq_some hget)
  · rename_i hget
    unfold get at hget ⊢
    rw [List.find?_append, hget, Option.none_or, List.find?_cons_of_pos (by simp)]

theorem recordsOf_upsert_of_ne (ledger : JobLedger) (record : JobRecord)
    (h : kind ≠ record.kind) : (ledger.upsert record).recordsOf kind = ledger.recordsOf kind := by
  unfold upsert
  split
  · exact (replaceFirst_spec record ledger.jobs).2 kind h
  · unfold recordsOf
    rw [List.filter_append, List.filter_cons, if_neg (by simpa using h.symm), List.filter_nil,
      List.append_nil]

theorem get_upsert_of_ne (ledger : JobLedger) (record : JobRecord) (h : kind ≠ record.kind) :
    (ledger.upsert record).get kind = ledger.get kind := by
  rw [get_eq_head?, recordsOf_upsert_of_ne ledger record h, ← get_eq_head?]

theorem atMostOne_upsert (h : ledger.AtMostOne) (record : JobRecord) :
    (ledger.upsert record).AtMostOne := by
  unfold upsert AtMostOne at *
  split
  · rw [(replaceFirst_spec record ledger.jobs).1]
    exact h
  · rename_i hget
    rw [List.map_append, List.nodup_append]
    refine ⟨h, List.nodup_singleton _, fun kind hkind other hother => ?_⟩
    obtain ⟨job, hjob, rfl⟩ := List.mem_map.mp hkind
    obtain rfl : other = record.kind := by simpa using hother
    simpa using List.find?_eq_none.mp hget job hjob

end JobLedger

open JobLedger

/-! ## One transaction -/

section

variable {ledger : JobLedger} {kind : JobKind} {nonce : Str} {change : JobRecord → JobRecord}

theorem currentRecord_eq_some_iff {record : JobRecord} :
    currentRecord ledger kind nonce = some record ↔
      ledger.get kind = some record ∧ record.nonce = some nonce := by
  unfold currentRecord
  rw [Option.filter_eq_some_iff, decide_eq_true_eq]

/-- With the current nonce the record is replaced; with another one nothing happens. -/
theorem updateIfCurrent_cases (ledger : JobLedger) (kind : JobKind) (nonce : Str)
    (hkind : ∀ record, (change record).kind = record.kind) :
    (∃ record, ledger.get kind = some record ∧ record.nonce = some nonce ∧
      updateIfCurrent kind nonce change ledger =
        (ledger.upsert (change record), some (change record)) ∧
      (ledger.upsert (change record)).get kind = some (change record)) ∨
    (ledger.currentNonce kind ≠ some nonce ∧
      updateIfCurrent kind nonce change ledger = (ledger, none)) := by
  unfold updateIfCurrent
  cases hcurrent : currentRecord ledger kind nonce with
  | none =>
    refine .inr ⟨fun hnonce => ?_, rfl⟩
    obtain ⟨record, hget, hrecord⟩ := Option.bind_eq_some_iff.mp hnonce
    rw [currentRecord_eq_some_iff.mpr ⟨hget, hrecord⟩] at hcurrent
    simp at hcurrent
  | some record =>
    obtain ⟨hget, hrecord⟩ := currentRecord_eq_some_iff.mp hcurrent
    refine .inl ⟨record, hget, hrecord, rfl, ?_⟩
    rw [← kind_of_get hget, ← hkind record]
    exact get_upsert_self ledger (change record)

theorem updateIfCurrent_of_current (hkind : ∀ record, (change record).kind = record.kind)
    (hcurrent : ledger.currentNonce kind = some nonce) :
    ∃ record after, ledger.get kind = some record ∧
      updateIfCurrent kind nonce change ledger = (after, some (change record)) ∧
      after.get kind = some (change record) := by
  rcases updateIfCurrent_cases ledger kind nonce hkind with
    ⟨record, hget, -, hupdate, hafter⟩ | ⟨hstale, -⟩
  · exact ⟨record, _, hget, hupdate, hafter⟩
  · exact absurd hcurrent hstale

theorem updateIfCurrent_of_stale (hkind : ∀ record, (change record).kind = record.kind)
    (hstale : ledger.currentNonce kind ≠ some nonce) :
    updateIfCurrent kind nonce change ledger = (ledger, none) := by
  rcases updateIfCurrent_cases ledger kind nonce hkind with
    ⟨record, hget, hnonce, -, -⟩ | ⟨-, hupdate⟩
  · exact absurd (Option.bind_eq_some_iff.mpr ⟨record, hget, hnonce⟩) hstale
  · exact hupdate

theorem applyHeartbeatUpdate_kind (update : JobUpdate) (now : UInt64) (record : JobRecord) :
    (applyHeartbeatUpdate record update now).kind = record.kind := rfl

theorem finishRecord_kind (phase : Str) (lastError : Option Str) (now : UInt64)
    (record : JobRecord) : (finishRecord record phase lastError now).kind = record.kind := rfl

/-- What any transaction does to the ledger. -/
theorem Transaction.apply_cases (transaction : Transaction) (ledger : JobLedger) :
    (transaction.apply ledger).1 = ledger ∨
      ∃ record, record.kind = transaction.kind ∧
        (transaction.apply ledger).1 = ledger.upsert record := by
  have hupdate : ∀ (kind : JobKind) (nonce : Str) (change : JobRecord → JobRecord),
      (∀ record, (change record).kind = record.kind) →
      (updateIfCurrent kind nonce change ledger).1 = ledger ∨
        ∃ record, record.kind = kind ∧
          (updateIfCurrent kind nonce change ledger).1 = ledger.upsert record := by
    intro kind nonce change hkind
    rcases updateIfCurrent_cases ledger kind nonce hkind with
      ⟨record, hget, -, hupdate, -⟩ | ⟨-, hupdate⟩
    · exact .inr ⟨change record, (hkind record).trans (kind_of_get hget), by rw [hupdate]⟩
    · exact .inl (by rw [hupdate])
  cases transaction with
  | start kind args => exact .inr ⟨(startJob kind args ledger).2, rfl, rfl⟩
  | heartbeat kind nonce update now =>
    exact hupdate kind nonce _ (applyHeartbeatUpdate_kind update now)
  | finish kind nonce phase lastError now =>
    exact hupdate kind nonce _ (finishRecord_kind phase lastError now)

/-! ## The history of a ledger -/

/-- The transaction ends the job with the nonce: a later start of its kind, or its finish. -/
def Transaction.Ends (kind : JobKind) (nonce : Str) : Transaction → Prop
  | .start startedKind _ => startedKind = kind
  | .heartbeat .. => False
  | .finish finishedKind finishedNonce .. => finishedKind = kind ∧ finishedNonce = nonce

/-- The nonce was returned by the latest start of the kind, or is that of the first record when
    there was no start, and its job has not been finished. -/
def IsCurrent (ledger : JobLedger) (history : List Transaction) (kind : JobKind) (nonce : Str) :
    Prop :=
  (∃ before args after, history = before ++ .start kind args :: after ∧ args.nonce = nonce ∧
    ∀ transaction ∈ after, ¬ transaction.Ends kind nonce) ∨
  (ledger.currentNonce kind = some nonce ∧
    ∀ transaction ∈ history, ¬ transaction.Ends kind nonce)

theorem isCurrent_concat {history : List Transaction} {transaction : Transaction} :
    IsCurrent ledger (history ++ [transaction]) kind nonce ↔
      (∃ args, transaction = .start kind args ∧ args.nonce = nonce) ∨
        (IsCurrent ledger history kind nonce ∧ ¬ transaction.Ends kind nonce) := by
  constructor
  · rintro (⟨before, args, after, hhistory, hnonce, hafter⟩ | ⟨hfirst, hall⟩)
    · rcases List.eq_nil_or_concat after with rfl | ⟨after, last, rfl⟩
      · obtain ⟨rfl, rfl⟩ : history = before ∧ transaction = .start kind args := by
          simpa using hhistory
        exact .inl ⟨args, rfl, hnonce⟩
      · rw [List.concat_eq_append] at hhistory hafter
        rw [← List.cons_append, ← List.append_assoc] at hhistory
        obtain ⟨rfl, hlast⟩ := List.append_inj' hhistory rfl
        obtain rfl : transaction = last := by simpa using hlast
        exact .inr ⟨.inl ⟨before, args, after, rfl, hnonce, fun t ht => hafter t (by simp [ht])⟩,
          hafter transaction (by simp)⟩
    · exact .inr ⟨.inr ⟨hfirst, fun t ht => hall t (by simp [ht])⟩, hall transaction (by simp)⟩
  · rintro (⟨args, rfl, hnonce⟩ | ⟨⟨before, args, after, rfl, hnonce, hafter⟩ | ⟨hfirst, hall⟩, hlast⟩)
    · exact .inl ⟨history, args, [], rfl, hnonce, by simp⟩
    · refine .inl ⟨before, args, after ++ [transaction], by simp, hnonce, fun t ht => ?_⟩
      rcases List.mem_append.mp ht with ht | ht
      · exact hafter t ht
      · obtain rfl : t = transaction := by simpa using ht
        exact hlast
    · refine .inr ⟨hfirst, fun t ht => ?_⟩
      rcases List.mem_append.mp ht with ht | ht
      · exact hall t ht
      · obtain rfl : t = transaction := by simpa using ht
        exact hlast

theorem currentNonce_upsert_of_ne {record : JobRecord} (h : kind ≠ record.kind) :
    (ledger.upsert record).currentNonce kind = ledger.currentNonce kind := by
  unfold currentNonce
  rw [get_upsert_of_ne ledger record h]

theorem currentNonce_upsert_self {record : JobRecord} (h : record.kind = kind) :
    (ledger.upsert record).currentNonce kind = record.nonce := by
  unfold currentNonce
  rw [← h, get_upsert_self, Option.bind_some]

/-- The nonce of a kind after a transaction. -/
theorem currentNonce_apply (transaction : Transaction) :
    (transaction.apply ledger).1.currentNonce kind = some nonce ↔
      (∃ args, transaction = .start kind args ∧ args.nonce = nonce) ∨
        (ledger.currentNonce kind = some nonce ∧ ¬ transaction.Ends kind nonce) := by
  by_cases hkind : transaction.kind = kind
  · subst hkind
    cases transaction with
    | start kind args =>
      have hafter : (ledger.upsert (startJob kind args ledger).2).currentNonce kind =
          some args.nonce := currentNonce_upsert_self rfl
      show (ledger.upsert (startJob kind args ledger).2).currentNonce kind = some nonce ↔ _
      rw [hafter]
      constructor
      · intro hnonce
        exact .inl ⟨args, rfl, Option.some.inj hnonce⟩
      · rintro (⟨_, hstart, hnonce⟩ | ⟨-, hends⟩)
        · cases hstart
          rw [hnonce]
        · exact absurd rfl hends
    | heartbeat kind expected update now =>
      have hafter : (heartbeatJobIfCurrent kind expected update now ledger).1.currentNonce kind =
          ledger.currentNonce kind := by
        unfold heartbeatJobIfCurrent
        rcases updateIfCurrent_cases ledger kind expected (applyHeartbeatUpdate_kind update now) with
          ⟨record, hget, -, hupdate, -⟩ | ⟨-, hupdate⟩
        · have hnew : (ledger.upsert (applyHeartbeatUpdate record update now)).currentNonce kind =
              record.nonce :=
            currentNonce_upsert_self ((applyHeartbeatUpdate_kind ..).trans (kind_of_get hget))
          rw [hupdate]
          show (ledger.upsert (applyHeartbeatUpdate record update now)).currentNonce kind = _
          rw [hnew]
          unfold currentNonce
          rw [hget, Option.bind_some]
        · rw [hupdate]
      show (heartbeatJobIfCurrent kind expected update now ledger).1.currentNonce kind = _ ↔ _
      rw [hafter]
      simp [Transaction.Ends, Transaction.kind]
    | finish kind expected phase lastError now =>
      show (finishJobIfCurrent kind expected phase lastError now ledger).1.currentNonce kind = _ ↔ _
      unfold finishJobIfCurrent
      rcases updateIfCurrent_cases ledger kind expected (finishRecord_kind phase lastError now) with
        ⟨record, hget, hnonce, hupdate, -⟩ | ⟨hnonce, hupdate⟩
      · -- The finished job was current, and leaves no nonce.
        have hbefore : ledger.currentNonce kind = some expected := by
          unfold currentNonce
          rw [hget]
          exact hnonce
        have hnew : (ledger.upsert (finishRecord record phase lastError now)).currentNonce kind =
            none := currentNonce_upsert_self ((finishRecord_kind ..).trans (kind_of_get hget))
        rw [hupdate]
        show (ledger.upsert (finishRecord record phase lastError now)).currentNonce kind = _ ↔ _
        rw [hnew]
        simp [hbefore, Transaction.Ends, Transaction.kind]
      · rw [hupdate]
        constructor
        · intro hcurrent
          refine .inr ⟨hcurrent, fun hends => hnonce ?_⟩
          rw [hends.2]
          exact hcurrent
        · rintro (⟨_, hstart, -⟩ | ⟨hcurrent, -⟩)
          · cases hstart
          · exact hcurrent
  · have hsame : (transaction.apply ledger).1.currentNonce kind = ledger.currentNonce kind := by
      rcases transaction.apply_cases ledger with happly | ⟨record, hrecord, happly⟩
      · rw [happly]
      · rw [happly, currentNonce_upsert_of_ne]
        rw [hrecord]
        exact fun h => hkind h.symm
    have hends : ¬ transaction.Ends kind nonce := by
      cases transaction with
      | start => exact hkind
      | heartbeat => exact id
      | finish => exact fun h => hkind h.1
    rw [hsame]
    constructor
    · exact fun hcurrent => .inr ⟨hcurrent, hends⟩
    · rintro (⟨args, rfl, -⟩ | ⟨hcurrent, -⟩)
      · exact absurd rfl hkind
      · exact hcurrent

theorem runLedger_concat (ledger : JobLedger) (history : List Transaction)
    (transaction : Transaction) :
    runLedger ledger (history ++ [transaction]) =
      (transaction.apply (runLedger ledger history)).1 := by
  unfold runLedger
  rw [List.foldl_append]
  rfl

/-- The nonce in the ledger is the one that the history makes current. -/
theorem currentNonce_runLedger (ledger : JobLedger) (history : List Transaction) (kind : JobKind)
    (nonce : Str) :
    (runLedger ledger history).currentNonce kind = some nonce ↔
      IsCurrent ledger history kind nonce := by
  induction history using List.reverseRecOn with
  | nil => simp [runLedger, IsCurrent]
  | append_singleton history transaction ih =>
    rw [runLedger_concat, currentNonce_apply, ih, isCurrent_concat]

theorem atMostOne_runLedger (h : ledger.AtMostOne) (history : List Transaction) :
    (runLedger ledger history).AtMostOne := by
  induction history using List.reverseRecOn with
  | nil => exact h
  | append_singleton history transaction ih =>
    rw [runLedger_concat]
    rcases transaction.apply_cases (runLedger ledger history) with happly | ⟨record, -, happly⟩
    · rw [happly]
      exact ih
    · rw [happly]
      exact atMostOne_upsert ih record

/-! ## Generations -/

theorem generation_startJob (kind : JobKind) (args : StartArgs) {old : JobRecord}
    (hget : ledger.get kind = some old) (hmax : old.generation < 0xffffffffffffffff) :
    old.generation < (startJob kind args ledger).2.generation := by
  have hnew : (startJob kind args ledger).2.generation = old.generation + 1 := by
    unfold startJob
    rw [hget]
    rfl
  rw [hnew, UInt64.lt_iff_toNat_lt, UInt64.toNat_add]
  have hbound := UInt64.lt_iff_toNat_lt.mp hmax
  have hone : UInt64.toNat 1 = 1 := rfl
  have hlimit : UInt64.toNat 0xffffffffffffffff = 2 ^ 64 - 1 := rfl
  omega

theorem generation_updateIfCurrent (kind' : JobKind)
    (hkind : ∀ record, (change record).kind = record.kind)
    (hgeneration : ∀ record, (change record).generation = record.generation) :
    ((updateIfCurrent kind' nonce change ledger).1.get kind).map JobRecord.generation =
      (ledger.get kind).map JobRecord.generation := by
  rcases updateIfCurrent_cases ledger kind' nonce hkind with
    ⟨record, hget, -, hupdate, hafter⟩ | ⟨-, hupdate⟩
  · rw [hupdate]
    by_cases hsame : kind = kind'
    · subst hsame
      show ((ledger.upsert (change record)).get kind).map JobRecord.generation = _
      rw [hafter, hget, Option.map_some, Option.map_some, hgeneration]
    · show ((ledger.upsert (change record)).get kind).map JobRecord.generation = _
      rw [get_upsert_of_ne]
      rw [hkind, kind_of_get hget]
      exact hsame
  · rw [hupdate]

/-- Only a start of the kind changes its generation. -/
theorem generation_apply {transaction : Transaction}
    (h : ∀ args, transaction ≠ .start kind args) :
    ((transaction.apply ledger).1.get kind).map JobRecord.generation =
      (ledger.get kind).map JobRecord.generation := by
  cases transaction with
  | start started args =>
    have hne : kind ≠ started := fun hkind => h args (by rw [hkind])
    have hget : (ledger.upsert (startJob started args ledger).2).get kind = ledger.get kind :=
      get_upsert_of_ne ledger _ hne
    exact congrArg _ hget
  | heartbeat started nonce update now =>
    exact generation_updateIfCurrent started (applyHeartbeatUpdate_kind update now) fun _ => rfl
  | finish started nonce phase lastError now =>
    exact generation_updateIfCurrent started (finishRecord_kind phase lastError now) fun _ => rfl

end

/-! ## The contract -/

/-- What holds after a history that began with the given ledger: for all further transactions,
    whichever process makes them. -/
structure LedgerContract (first : JobLedger) (history : List Transaction) (ledger : JobLedger) :
    Prop where
  atMostOne : ledger.AtMostOne
  other_kinds : ∀ transaction : Transaction, ∀ kind ≠ transaction.kind,
    (transaction.apply ledger).1.recordsOf kind = ledger.recordsOf kind
  heartbeat_current : ∀ (kind : JobKind) (nonce : Str) (update : JobUpdate) (now : UInt64),
    IsCurrent first history kind nonce →
    ∃ record after, ledger.get kind = some record ∧
      heartbeatJobIfCurrent kind nonce update now ledger =
        (after, some (applyHeartbeatUpdate record update now)) ∧
      after.get kind = some (applyHeartbeatUpdate record update now)
  heartbeat_stale : ∀ (kind : JobKind) (nonce : Str) (update : JobUpdate) (now : UInt64),
    ¬ IsCurrent first history kind nonce →
    heartbeatJobIfCurrent kind nonce update now ledger = (ledger, none)
  finish_current : ∀ (kind : JobKind) (nonce phase : Str) (lastError : Option Str) (now : UInt64),
    IsCurrent first history kind nonce →
    ∃ record after, ledger.get kind = some record ∧
      finishJobIfCurrent kind nonce phase lastError now ledger =
        (after, some (finishRecord record phase lastError now)) ∧
      after.get kind = some (finishRecord record phase lastError now)
  finish_stale : ∀ (kind : JobKind) (nonce phase : Str) (lastError : Option Str) (now : UInt64),
    ¬ IsCurrent first history kind nonce →
    finishJobIfCurrent kind nonce phase lastError now ledger = (ledger, none)
  start : ∀ (kind : JobKind) (args : StartArgs),
    (startJob kind args ledger).1.get kind = some (startJob kind args ledger).2 ∧
      (startJob kind args ledger).2.nonce = some args.nonce
  generation_start : ∀ (kind : JobKind) (args : StartArgs) (old : JobRecord),
    ledger.get kind = some old → old.generation < 0xffffffffffffffff →
    old.generation < (startJob kind args ledger).2.generation
  generation_other : ∀ (transaction : Transaction) (kind : JobKind),
    (∀ args, transaction ≠ .start kind args) →
    ((transaction.apply ledger).1.get kind).map JobRecord.generation =
      (ledger.get kind).map JobRecord.generation

/-- From any ledger with at most one record of each kind, after any history of transactions. -/
theorem stale_jobs_cannot_overwrite {first : JobLedger} (hfirst : first.AtMostOne)
    (history : List Transaction) : LedgerContract first history (runLedger first history) := by
  have hnonce := currentNonce_runLedger first history
  refine
    { atMostOne := atMostOne_runLedger hfirst history
      other_kinds := ?_
      heartbeat_current := ?_
      heartbeat_stale := ?_
      finish_current := ?_
      finish_stale := ?_
      start := fun kind args => ⟨get_upsert_self _ _, rfl⟩
      generation_start := fun kind args _ hget hmax => generation_startJob kind args hget hmax
      generation_other := fun _ _ h => generation_apply h }
  · intro transaction kind hkind
    rcases transaction.apply_cases (runLedger first history) with happly | ⟨record, hrecord, happly⟩
    · rw [happly]
    · rw [happly, recordsOf_upsert_of_ne]
      rwa [hrecord]
  · intro kind nonce update now hcurrent
    exact updateIfCurrent_of_current (applyHeartbeatUpdate_kind update now)
      ((hnonce kind nonce).mpr hcurrent)
  · intro kind nonce update now hstale
    exact updateIfCurrent_of_stale (applyHeartbeatUpdate_kind update now)
      (mt (hnonce kind nonce).mp hstale)
  · intro kind nonce phase lastError now hcurrent
    exact updateIfCurrent_of_current (finishRecord_kind phase lastError now)
      ((hnonce kind nonce).mpr hcurrent)
  · intro kind nonce phase lastError now hstale
    exact updateIfCurrent_of_stale (finishRecord_kind phase lastError now)
      (mt (hnonce kind nonce).mp hstale)

/-! A first ledger with a running watcher in the last generation. -/

private def lastGeneration : JobRecord :=
  { kind := .watcher
    pid := some 7
    pidStartTime := none
    nonce := some "a".toList
    generation := 0xffffffffffffffff
    startedAtUnix := some 1
    heartbeatAtUnix := some 1
    phase := "watching".toList
    attempt := 1
    lastError := none
    details := []
    active := true }

private def secondWatcher : StartArgs := ⟨"starting".toList, 1, 8, none, "b".toList, 2⟩

theorem stale_jobs_cannot_overwrite_sample :
    LedgerContract ⟨[lastGeneration]⟩
      [.start .watcher secondWatcher, .finish .watcher "a".toList "stale".toList none 3]
      (runLedger ⟨[lastGeneration]⟩
        [.start .watcher secondWatcher, .finish .watcher "a".toList "stale".toList none 3]) :=
  stale_jobs_cannot_overwrite (by unfold AtMostOne; exact List.nodup_singleton _) _

/-- The generation after the last one is smaller, and a nonce of the first ledger is accepted
    before any job of its kind has been started. -/
theorem generation_wraps_and_first_nonce_counts :
    (startJob .watcher secondWatcher ⟨[lastGeneration]⟩).2.generation <
        lastGeneration.generation ∧
      (finishJobIfCurrent .watcher "a".toList "done".toList none 3 ⟨[lastGeneration]⟩).2 ≠ none := by
  decide +kernel

end Ivygrep.Native
