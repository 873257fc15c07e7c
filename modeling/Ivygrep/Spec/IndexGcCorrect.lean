import Ivygrep.Native.IndexGc

/-!
# What holds when a pass removes an index

A marker is only there while every check of the root in the loop, since the one that wrote it,
found the root missing. That and the locks that a pass holds are what other processes cannot
change, so they are carried through a pass to the removal.
-/

namespace Ivygrep.Native

open ForStd

namespace Gc

variable {Path : Type} [DecidableEq Path]

abbrev GcLog (Path : Type) := List (GcWorld Path × GcEvent Path)

abbrev GcProgress (Path : Type) := Progress (GcWorld Path) (GcEvent Path)

/-! ## The log -/

omit [DecidableEq Path] in
/-- The event says what was so in the world that the action met. -/
def EventOk (rootOf : Path → Path) (entry : GcWorld Path × GcEvent Path) : Prop :=
  match entry.2 with
  | .listed entries => entry.1.entries = entries
  | .baseRoot indexDir gone => entry.1.rootIsGone (rootOf indexDir) = gone
  | .baseRead indexDir ref => entry.1.baseRef indexDir = ref
  | .rootChecked indexDir _ gone => entry.1.rootIsGone (rootOf indexDir) = gone
  | .lockProbed indexDir name present => (entry.1.lock indexDir name ≠ .absent ↔ present = true)
  | .rootRechecked indexDir gone => entry.1.rootIsGone (rootOf indexDir) = gone
  | .removed .. => True
  | .other => True

/-- The loop of a pass at that time found the root missing, and no later one found it present. -/
def MissingSince (log : GcLog Path) (indexDir : Path) (since : Nat) : Prop :=
  ∃ before world after, log = before ++ (world, .rootChecked indexDir since true) :: after ∧
    ∀ entry ∈ after, ∀ nowUnix, entry.2 ≠ .rootChecked indexDir nowUnix false

/-- The entry was logged after the given beginning of the log. -/
def Logged (start : GcLog Path) (entry : GcWorld Path × GcEvent Path) (log : GcLog Path) : Prop :=
  ∃ tail, log = start ++ tail ∧ entry ∈ tail

/-- The pass holds the lock in that world, or found no file for it. -/
def HeldIn (start log : GcLog Path) (indexDir : Path) (name : LockName) (world : GcWorld Path) :
    Prop :=
  world.lock indexDir name = .pass ∨
    ∃ probed, Logged start (probed, .lockProbed indexDir name false) log

/-- A base that an overlay of the list may read was not read by it, or is in the list of bases. -/
def BasesOk (start : GcLog Path) (entries bases : List Path) (log : GcLog Path) : Prop :=
  ∀ overlay ∈ entries, (∃ world, Logged start (world, .baseRoot overlay true) log) ∨
    ∃ world ref, Logged start (world, .baseRead overlay ref) log ∧
      ∀ base, ref = some base → base.baseIndexDir ∈ bases

/-- What is known of a removal from the log before it and the world that it meets. -/
structure RemovalOk (before : GcLog Path) (world : GcWorld Path) (indexDir : Path)
    (nowUnix effectiveGrace : Nat) : Prop where
  missing : ∃ since, MissingSince before indexDir since ∧
    saturatingAdd since effectiveGrace ≤ nowUnix
  pass : ∃ start entries, (∃ earlier listed, start = earlier ++ [(listed, .listed entries)]) ∧
    (∃ checked, Logged start (checked, .rootRechecked indexDir true) before ∧
      ∀ name, HeldIn start before indexDir name checked) ∧
    (∀ name, HeldIn start before indexDir name world) ∧
    ∃ bases, BasesOk start entries bases before ∧ indexDir ∉ bases

/-- The invariant of all passes. In between, the marker of one index can be stale. -/
structure GcInv (rootOf : Path → Path) (stale : Option Path) (progress : GcProgress Path) :
    Prop where
  events : ∀ entry ∈ progress.log, EventOk rootOf entry
  markers : ∀ indexDir since, stale ≠ some indexDir →
    progress.shared.marker indexDir = some since → MissingSince progress.log indexDir since
  removals : ∀ before world indexDir nowUnix effectiveGrace after,
    progress.log = before ++ (world, .removed indexDir nowUnix effectiveGrace) :: after →
    RemovalOk before world indexDir nowUnix effectiveGrace

section Log

variable {start log log' : GcLog Path} {entry : GcWorld Path × GcEvent Path} {indexDir : Path}

omit [DecidableEq Path] in
theorem logged_mono (h : log <+: log') (hlogged : Logged start entry log) :
    Logged start entry log' := by
  obtain ⟨more, rfl⟩ := h
  obtain ⟨tail, rfl, hentry⟩ := hlogged
  exact ⟨tail ++ more, List.append_assoc .., List.mem_append_left _ hentry⟩

omit [DecidableEq Path] in
theorem logged_exists_mono {event : GcEvent Path} (h : log <+: log')
    (hlogged : ∃ world, Logged start (world, event) log) :
    ∃ world, Logged start (world, event) log' := by
  obtain ⟨world, hworld⟩ := hlogged
  exact ⟨world, logged_mono h hworld⟩

omit [DecidableEq Path] in
theorem logged_concat (h : start <+: log) : Logged start entry (log ++ [entry]) := by
  obtain ⟨tail, rfl⟩ := h
  exact ⟨tail ++ [entry], List.append_assoc .., by simp⟩

omit [DecidableEq Path] in
theorem missingSince_concat {since : Nat} (h : MissingSince log indexDir since)
    (hentry : ∀ nowUnix, entry.2 ≠ .rootChecked indexDir nowUnix false) :
    MissingSince (log ++ [entry]) indexDir since := by
  obtain ⟨before, world, after, rfl, hafter⟩ := h
  refine ⟨before, world, after ++ [entry], by simp, fun other hother => ?_⟩
  rcases List.mem_append.mp hother with hmem | hmem
  · exact hafter other hmem
  · obtain rfl : other = entry := by simpa using hmem
    exact hentry

omit [DecidableEq Path] in
theorem missingSince_checked {world : GcWorld Path} {nowUnix : Nat} :
    MissingSince (log ++ [(world, .rootChecked indexDir nowUnix true)]) indexDir nowUnix :=
  ⟨log, world, [], rfl, by simp⟩

omit [DecidableEq Path] in
theorem basesOk_mono {entries bases : List Path} (h : log <+: log')
    (hbases : BasesOk start entries bases log) : BasesOk start entries bases log' := by
  intro overlay hoverlay
  rcases hbases overlay hoverlay with ⟨world, hlogged⟩ | ⟨world, ref, hlogged, href⟩
  · exact .inl ⟨world, logged_mono h hlogged⟩
  · exact .inr ⟨world, ref, logged_mono h hlogged, href⟩

omit [DecidableEq Path] in
theorem basesOk_gone {overlay : Path} {entries bases : List Path}
    (hbases : BasesOk start entries bases log)
    (hgone : ∃ world, Logged start (world, .baseRoot overlay true) log) :
    BasesOk start (overlay :: entries) bases log := by
  intro other hother
  rcases List.mem_cons.mp hother with rfl | hmem
  · exact .inl hgone
  · exact hbases other hmem

omit [DecidableEq Path] in
theorem basesOk_read {overlay : Path} {entries bases more : List Path} {ref : Option (BaseRef Path)}
    (hbases : BasesOk start entries bases log)
    (hread : ∃ world, Logged start (world, .baseRead overlay ref) log)
    (href : ∀ base, ref = some base → base.baseIndexDir ∈ more) (hsub : bases ⊆ more) :
    BasesOk start (overlay :: entries) more log := by
  intro other hother
  rcases List.mem_cons.mp hother with rfl | hmem
  · obtain ⟨world, hlogged⟩ := hread
    exact .inr ⟨world, ref, hlogged, href⟩
  · rcases hbases other hmem with hgone | ⟨world, found, hlogged, hfound⟩
    · exact .inl hgone
    · exact .inr ⟨world, found, hlogged, fun base hbase => hsub (hfound base hbase)⟩

end Log

/-! ## Single actions -/

section Actions

variable {rootOf : Path → Path} {stale : Option Path} {progress : GcProgress Path}
  {met : GcWorld Path} {α : Type}

omit [DecidableEq Path] in
/-- An action keeps the invariant, but for the marker of a root that it found present. -/
theorem gcInv_after (h : GcInv rootOf stale progress) (hothers : Others progress.shared met)
    {event : α → GcEvent Path} {action : GcWorld Path → α × GcWorld Path}
    (hok : EventOk rootOf (met, event (action met).1))
    (hremoved : ∀ indexDir nowUnix grace, event (action met).1 = .removed indexDir nowUnix grace →
      RemovalOk progress.log met indexDir nowUnix grace)
    {stale' : Option Path}
    (hmarkers : ∀ indexDir since, stale' ≠ some indexDir →
      (action met).2.marker indexDir = some since →
      (stale ≠ some indexDir ∧ met.marker indexDir = some since ∧
        ∀ nowUnix, event (action met).1 ≠ .rootChecked indexDir nowUnix false) ∨
      MissingSince (progress.log ++ [(met, event (action met).1)]) indexDir since) :
    GcInv rootOf stale' (progress.after met event action) where
  events := by
    intro entry hentry
    rcases List.mem_append.mp hentry with hmem | hmem
    · exact h.events entry hmem
    · obtain rfl : entry = (met, event (action met).1) := by simpa using hmem
      exact hok
  markers := by
    intro indexDir since hstale hmarker
    rcases hmarkers indexDir since hstale hmarker with ⟨hfresh, hbefore, hevent⟩ | hmissing
    · -- Others only clear markers.
      have hold : progress.shared.marker indexDir = some since := by
        rcases hothers.1 indexDir with hsame | hnone
        · rw [← hsame, hbefore]
        · rw [hnone] at hbefore
          cases hbefore
      exact missingSince_concat (h.markers indexDir since hfresh hold) hevent
    · exact hmissing
  removals := by
    intro before world indexDir nowUnix effectiveGrace after hlog
    have hlog : progress.log ++ [(met, event (action met).1)] =
      before ++ (world, .removed indexDir nowUnix effectiveGrace) :: after := hlog
    rcases List.eq_nil_or_concat after with rfl | ⟨after, last, rfl⟩
    · obtain ⟨rfl, hlast⟩ := List.append_inj' hlog rfl
      obtain ⟨rfl, hevent⟩ := Prod.mk.inj (List.head_eq_of_cons_eq hlast)
      exact hremoved indexDir nowUnix effectiveGrace hevent
    · rw [List.concat_eq_append, ← List.cons_append, ← List.append_assoc] at hlog
      obtain ⟨hold, -⟩ := List.append_inj' hlog rfl
      exact h.removals before world indexDir nowUnix effectiveGrace after hold

end Actions

/-! ## What a pass carries to the removal -/

/-- An event that is no removal and no check of the loop. -/
def Quiet : GcEvent Path → Prop
  | .rootChecked .. | .removed .. => False
  | _ => True

/-- Inside the pass that began after `start`: the locks that it holds on an index, and since when
    the root of that index is missing, if that is known. -/
structure Guarded (rootOf : Path → Path) (start : GcLog Path) (indexDir : Path)
    (names : List LockName) (since : Option Nat) (progress : GcProgress Path) : Prop where
  inv : GcInv rootOf none progress
  started : start <+: progress.log
  locks : ∀ name ∈ names, HeldIn start progress.log indexDir name progress.shared
  missing : ∀ time, since = some time → MissingSince progress.log indexDir time

section Guarded

variable {rootOf : Path → Path} {start : GcLog Path} {indexDir : Path} {names : List LockName}
  {since : Option Nat} {progress : GcProgress Path} {met : GcWorld Path} {α : Type}

omit [DecidableEq Path] in
theorem heldIn_mono {log log' : GcLog Path} {name : LockName} {world : GcWorld Path}
    (h : log <+: log') (hheld : HeldIn start log indexDir name world) :
    HeldIn start log' indexDir name world := by
  rcases hheld with hpass | ⟨probed, hlogged⟩
  · exact .inl hpass
  · exact .inr ⟨probed, logged_mono h hlogged⟩

omit [DecidableEq Path] in
/-- Others do not touch the locks that the pass holds. -/
theorem heldIn_met {name : LockName} (hothers : Others progress.shared met)
    (hheld : HeldIn start progress.log indexDir name progress.shared) :
    HeldIn start progress.log indexDir name met := by
  rcases hheld with hpass | hprobed
  · exact .inl ((hothers.2 indexDir name).mpr hpass)
  · exact .inr hprobed

omit [DecidableEq Path] in
/-- Without locks the assertion says nothing of the index. -/
theorem Guarded.release (h : Guarded rootOf start indexDir names since progress) {other : Path} :
    Guarded rootOf start other [] none progress :=
  ⟨h.inv, h.started, nofun, nofun⟩

omit [DecidableEq Path] in
theorem guarded_after (h : Guarded rootOf start indexDir names since progress)
    (hothers : Others progress.shared met) {event : α → GcEvent Path}
    {action : GcWorld Path → α × GcWorld Path}
    (hok : EventOk rootOf (met, event (action met).1)) (hquiet : Quiet (event (action met).1))
    (hmarker : ∀ other time, (action met).2.marker other = some time →
      met.marker other = some time ∨
        MissingSince (progress.log ++ [(met, event (action met).1)]) other time)
    {names' : List LockName}
    (hlocks : ∀ name ∈ names', HeldIn start (progress.log ++ [(met, event (action met).1)])
      indexDir name (action met).2) :
    Guarded rootOf start indexDir names' since (progress.after met event action) where
  inv := by
    apply gcInv_after h.inv hothers hok
    · intro other nowUnix grace hevent
      rw [hevent] at hquiet
      exact hquiet.elim
    · intro other time _ htime
      rcases hmarker other time htime with hsame | hmissing
      · left
        refine ⟨nofun, hsame, fun nowUnix hevent => ?_⟩
        rw [hevent] at hquiet
        exact hquiet
      · exact .inr hmissing
  started := h.started.trans (List.prefix_append _ _)
  locks := hlocks
  missing := by
    intro time htime
    apply missingSince_concat (h.missing time htime)
    intro nowUnix hevent
    rw [show event (action met).1 = .rootChecked indexDir nowUnix false from hevent] at hquiet
    exact hquiet

omit [DecidableEq Path] in
/-- A quiet observation keeps everything, and is logged in a world in which the locks are held. -/
theorem observe_spec {event : α → GcEvent Path} {read : GcWorld Path → α}
    (hok : ∀ world, EventOk rootOf (world, event (read world)))
    (hquiet : ∀ value, Quiet (event value)) :
    Triple Others (Guarded rootOf start indexDir names since) (observe event read)
      fun value progress => Guarded rootOf start indexDir names since progress ∧
        ∃ world, Logged start (world, event value) progress.log ∧
          ∀ name ∈ names, HeldIn start progress.log indexDir name world := by
  apply Triple.atomic
  intro progress met h hothers
  have hlocks : ∀ name ∈ names, HeldIn start (progress.log ++ [(met, event (read met))])
      indexDir name met := by
    intro name hname
    exact heldIn_mono (List.prefix_append _ _) (heldIn_met hothers (h.locks name hname))
  constructor
  · exact guarded_after h hothers (hok met) (hquiet _) (fun _ _ => .inl) hlocks
  · exact ⟨met, logged_concat h.started, hlocks⟩

omit [DecidableEq Path] in
/-- The same where only the assertion matters. -/
theorem observe_keeps {event : α → GcEvent Path} {read : GcWorld Path → α}
    (hok : ∀ world, EventOk rootOf (world, event (read world)))
    (hquiet : ∀ value, Quiet (event value)) :
    Triple Others (Guarded rootOf start indexDir names since) (observe event read)
      fun _ => Guarded rootOf start indexDir names since :=
  (observe_spec hok hquiet).conseq (fun _ h => h) fun _ _ h => h.1

omit [DecidableEq Path] in
/-- A change that writes no marker. The locks that it releases are not held after it. -/
theorem change_spec {write : GcWorld Path → GcWorld Path} {names' : List LockName}
    (hsub : names' ⊆ names)
    (hmarker : ∀ world other, (write world).marker other = world.marker other ∨
      (write world).marker other = none)
    (hlock : ∀ world, ∀ name ∈ names', world.lock indexDir name = .pass →
      (write world).lock indexDir name = .pass) :
    Triple Others (Guarded rootOf start indexDir names since) (change .other write)
      fun _ => Guarded rootOf start indexDir names' since := by
  apply Triple.atomic
  intro progress met h hothers
  apply guarded_after h hothers
  · trivial
  · trivial
  · intro other time htime
    rcases hmarker met other with hsame | hnone
    · rw [hsame] at htime
      exact .inl htime
    · rw [hnone] at htime
      cases htime
  · intro name hname
    rcases heldIn_met hothers (h.locks name (hsub hname)) with hpass | hprobed
    · exact .inl (hlock met name hname hpass)
    · exact heldIn_mono (List.prefix_append _ _) (.inr hprobed)

end Guarded

/-! ## The parts of a pass -/

section Parts

variable {rootOf : Path → Path} {start : GcLog Path} {indexDir : Path} {names : List LockName}
  {since : Option Nat}

theorem registeredWorktrees_spec (registered : Registered Path) (baseRoot : Path) :
    Triple Others (Guarded rootOf start indexDir names since)
      (registeredWorktrees registered baseRoot)
      fun _ => Guarded rootOf start indexDir names since := by
  unfold registeredWorktrees
  cases registered.lookup baseRoot with
  | some listing => exact Triple.ret fun _ h => h
  | none =>
    apply Triple.bind
    · exact observe_keeps (fun _ => trivial) fun _ => trivial
    · intro listing
      exact Triple.ret fun _ h => h

theorem worktreeIsUnregistered_spec (other : Path) (registered : Registered Path) :
    Triple Others (Guarded rootOf start indexDir names since)
      (worktreeIsUnregistered rootOf other registered)
      fun _ => Guarded rootOf start indexDir names since := by
  apply Triple.bind
  · exact observe_keeps (fun _ => trivial) fun _ => trivial
  · intro ref
    cases ref with
    | none => exact Triple.ret fun _ h => h
    | some ref =>
      apply Triple.bind
      · exact observe_keeps (fun _ => trivial) fun _ => trivial
      · intro root
        apply Triple.bind
        · exact registeredWorktrees_spec registered ref.baseWorkspaceRoot
        · intro found
          cases found.1 with
          | none => exact Triple.ret fun _ h => h
          | some worktrees => exact Triple.ret fun _ h => h

omit [DecidableEq Path] in
theorem liveBases_spec (entries : List Path) :
    Triple Others (Guarded rootOf start indexDir names since) (liveBases rootOf entries)
      fun bases progress => Guarded rootOf start indexDir names since progress ∧
        BasesOk start entries bases progress.log := by
  induction entries with
  | nil => exact Triple.ret fun _ h => ⟨h, nofun⟩
  | cons overlay entries ih =>
    apply Triple.bind
    · exact observe_spec (fun _ => rfl) fun _ => trivial
    · intro gone
      -- What was observed of this overlay stays in the log while the others are read.
      have hrest : ∀ event, Triple Others
          (fun progress => Guarded rootOf start indexDir names since progress ∧
            ∃ world, Logged start (world, event) progress.log ∧
              ∀ name ∈ names, HeldIn start progress.log indexDir name world)
          (liveBases rootOf entries)
          fun bases progress => (Guarded rootOf start indexDir names since progress ∧
            BasesOk start entries bases progress.log) ∧
            ∃ world, Logged start (world, event) progress.log := by
        intro event
        apply (ih.frame fun _ _ => logged_exists_mono).conseq
        · intro progress h
          exact ⟨h.1, h.2.imp fun _ => And.left⟩
        · exact fun _ _ h => h
      cases gone with
      | true =>
        apply (hrest (.baseRoot overlay true)).conseq (fun _ h => h)
        intro bases progress h
        exact ⟨h.1.1, basesOk_gone h.1.2 h.2⟩
      | false =>
        have hread : Triple Others (Guarded rootOf start indexDir names since)
            (observe (.baseRead overlay) fun world => world.baseRef overlay) _ :=
          observe_spec (fun _ => rfl) fun _ => trivial
        apply Triple.bind
        · exact hread.conseq (fun _ h => h.1) fun _ _ h => h
        · intro ref
          apply Triple.bind
          · exact hrest (.baseRead overlay ref)
          · intro bases
            cases ref with
            | none => exact Triple.ret fun _ h => ⟨h.1.1, basesOk_read h.1.2 h.2 nofun fun _ h => h⟩
            | some ref =>
              apply Triple.ret
              intro progress h
              refine ⟨h.1.1, basesOk_read h.1.2 h.2 ?_ fun _ hbase => List.mem_cons_of_mem _ hbase⟩
              intro base hbase
              cases hbase
              exact List.mem_cons_self

theorem writeMarker_spec {nowUnix : Nat} :
    Triple Others (Guarded rootOf start indexDir names (some nowUnix))
      (change .other fun world =>
        { world with marker := setAt world.marker indexDir (some nowUnix) })
      fun _ => Guarded rootOf start indexDir names (some nowUnix) := by
  apply Triple.atomic
  intro progress met h hothers
  apply guarded_after h hothers
  · trivial
  · trivial
  · intro other time htime
    by_cases heq : other = indexDir
    · have htime : some nowUnix = some time := by simpa [setAt, heq] using htime
      obtain rfl := Option.some.inj htime
      rw [heq]
      exact .inr (missingSince_concat (h.missing nowUnix rfl) nofun)
    · exact .inl (by simpa [setAt, heq] using htime)
  · intro name hname
    rcases heldIn_met hothers (h.locks name hname) with hpass | hprobed
    · exact .inl hpass
    · exact heldIn_mono (List.prefix_append _ _) (.inr hprobed)

/-- The marker is from a check since which no other found the root present. -/
theorem missingSince_spec (nowUnix : Nat) :
    Triple Others (Guarded rootOf start indexDir names (some nowUnix))
      (missingSince indexDir nowUnix)
      fun time => Guarded rootOf start indexDir names (some time) := by
  have hread : Triple Others (Guarded rootOf start indexDir names (some nowUnix))
      (observe (fun _ => .other) fun world => world.marker indexDir)
      fun marker progress => Guarded rootOf start indexDir names (some nowUnix) progress ∧
        ∀ time, marker = some time → MissingSince progress.log indexDir time := by
    apply Triple.atomic
    intro progress met h hothers
    have hafter : Guarded rootOf start indexDir names (some nowUnix)
        (progress.after met (fun _ => .other) fun world => (world.marker indexDir, world)) := by
      apply guarded_after h hothers
      · trivial
      · trivial
      · exact fun _ _ => .inl
      · intro name hname
        exact heldIn_mono (List.prefix_append _ _) (heldIn_met hothers (h.locks name hname))
    exact ⟨hafter, fun time htime => hafter.inv.markers indexDir time nofun htime⟩
  apply Triple.bind
  · exact hread
  · intro marker
    cases marker with
    | some time =>
      apply Triple.ret
      intro progress h
      refine ⟨h.1.inv, h.1.started, h.1.locks, ?_⟩
      intro oldest holdest
      obtain rfl : min time nowUnix = oldest := Option.some.inj holdest
      rcases Nat.le_total time nowUnix with hle | hle
      · rw [Nat.min_eq_left hle]
        exact h.2 time rfl
      · rw [Nat.min_eq_right hle]
        exact h.1.missing nowUnix rfl
    | none =>
      apply Triple.bind
      · exact writeMarker_spec.conseq (fun _ h => h.1) fun _ _ h => h
      · intro _
        exact Triple.ret fun _ h => h

/-! ## The locks -/

/-- `none` is the answer when the pass has the lock, or saw no file for it. -/
theorem takeLock_spec (name : LockName) :
    Triple Others (Guarded rootOf start indexDir names since) (takeLock indexDir name)
      fun removal => Guarded rootOf start indexDir
        (if removal = none then name :: names else names) since := by
  have hprobe : Triple Others (Guarded rootOf start indexDir names since)
      (observe (.lockProbed indexDir name) fun world =>
        decide (world.lock indexDir name ≠ .absent)) _ :=
    observe_spec (fun world => by simp [EventOk]) fun _ => trivial
  apply Triple.bind
  · exact hprobe
  · intro present
    cases present with
    | true =>
      apply Triple.atomic
      intro progress met h hothers
      have hkeep : ∀ log, progress.log <+: log → ∀ kept ∈ names,
          HeldIn start log indexDir kept met := by
        intro log hlog kept hkept
        exact heldIn_mono hlog (heldIn_met hothers (h.1.locks kept hkept))
      apply guarded_after h.1 hothers
      · trivial
      · trivial
      · intro other time htime
        left
        cases hlock : met.lock indexDir name <;> simpa [hlock, setLock] using htime
      · cases hlock : met.lock indexDir name with
        | absent => simpa [hlock] using hkeep _ (List.prefix_append _ _)
        | other => simpa [hlock] using hkeep _ (List.prefix_append _ _)
        | pass => simpa [hlock] using hkeep _ (List.prefix_append _ _)
        | free =>
          intro kept hkept
          have hkept : kept = name ∨ kept ∈ names := by simpa [hlock] using hkept
          by_cases heq : kept = name
          · exact .inl (by simp [setLock, setAt, heq])
          · rcases hkeep _ (List.prefix_append _ _) kept (hkept.resolve_left heq) with hpass | hprobed
            · exact .inl (by simpa [hlock, setLock, setAt, heq] using hpass)
            · exact .inr hprobed
    | false =>
      apply Triple.ret
      intro progress h
      obtain ⟨world, hlogged, -⟩ := h.2
      refine ⟨h.1.inv, h.1.started, ?_, h.1.missing⟩
      intro kept hkept
      rcases List.mem_cons.mp hkept with rfl | hmem
      · exact .inr ⟨world, hlogged⟩
      · exact h.1.locks kept hmem

theorem unlock_spec :
    Triple Others (Guarded rootOf start indexDir names since) (unlock indexDir)
      fun _ => Guarded rootOf start indexDir [] since := by
  apply change_spec
  · exact List.nil_subset _
  · exact fun _ _ => .inl rfl
  · nofun

theorem removeDir_spec :
    Triple Others (Guarded rootOf start indexDir names since) (removeDir indexDir)
      fun _ => Guarded rootOf start indexDir [] since := by
  apply change_spec
  · exact List.nil_subset _
  · intro world other
    by_cases heq : other = indexDir
    · exact .inr (by simp [setAt, heq])
    · exact .inl (by simp [setAt, heq])
  · nofun

/-! ## The removal -/

/-- The root was missing at a check under the locks. -/
def Rechecked (start : GcLog Path) (indexDir : Path) (names : List LockName) (log : GcLog Path) :
    Prop :=
  ∃ checked, Logged start (checked, .rootRechecked indexDir true) log ∧
    ∀ name ∈ names, HeldIn start log indexDir name checked

omit [DecidableEq Path] in
theorem rechecked_mono {log log' : GcLog Path} (h : log <+: log')
    (hchecked : Rechecked start indexDir names log) : Rechecked start indexDir names log' := by
  obtain ⟨checked, hlogged, hlocks⟩ := hchecked
  exact ⟨checked, logged_mono h hlogged, fun name hname => heldIn_mono h (hlocks name hname)⟩

theorem stillGone_spec (dueAsUnregistered : Bool) :
    Triple Others (Guarded rootOf start indexDir names since)
      (stillGone rootOf indexDir dueAsUnregistered)
      fun gone progress => Guarded rootOf start indexDir names since progress ∧
        (gone = true → Rechecked start indexDir names progress.log) := by
  apply Triple.bind
  · exact observe_spec (fun _ => rfl) fun _ => trivial
  · intro gone
    cases gone with
    | false => exact Triple.ret fun _ h => ⟨h.1, nofun⟩
    | true =>
      cases dueAsUnregistered with
      | false => exact Triple.ret fun _ h => ⟨h.1, fun _ => h.2⟩
      | true =>
        apply Triple.bind
        · exact (worktreeIsUnregistered_spec indexDir []).frame fun _ _ => rechecked_mono
        · intro unregistered
          exact Triple.ret fun _ h => ⟨h.1, fun _ => h.2⟩

/-- The removal itself: everything that is known of it is in the log, and the pass still holds the
    locks. -/
theorem removeStores_spec {entries bases : List Path} {time nowUnix effectiveGrace : Nat}
    (hstart : ∃ earlier listed, start = earlier ++ [(listed, .listed entries)])
    (hbase : indexDir ∉ bases) (hdue : saturatingAdd time effectiveGrace ≤ nowUnix)
    (hnames : ∀ name, name ∈ names) :
    Triple Others (fun progress => (Guarded rootOf start indexDir names (some time) progress ∧
        BasesOk start entries bases progress.log) ∧ Rechecked start indexDir names progress.log)
      (removeStores indexDir nowUnix effectiveGrace)
      fun _ => Guarded rootOf start indexDir [] none := by
  apply Triple.atomic
  intro progress met h hothers
  obtain ⟨⟨hguarded, hbases⟩, checked, hlogged, hlocks⟩ := h
  have hremoval : RemovalOk progress.log met indexDir nowUnix effectiveGrace := by
    constructor
    · exact ⟨time, hguarded.missing time rfl, hdue⟩
    · refine ⟨start, entries, hstart, ⟨checked, hlogged, ?_⟩, ?_, bases, hbases, hbase⟩
      · exact fun name => hlocks name (hnames name)
      · exact fun name => heldIn_met hothers (hguarded.locks name (hnames name))
  constructor
  · apply gcInv_after hguarded.inv hothers
    · trivial
    · intro other now grace hevent
      cases hevent
      exact hremoval
    · intro other since _ hmarker
      by_cases heq : other = indexDir
      · simp [setAt, heq] at hmarker
      · exact .inl ⟨nofun, by simpa [setAt, heq] using hmarker, nofun⟩
  · exact hguarded.started.trans (List.prefix_append _ _)
  · nofun
  · nofun

theorem removeLocked_spec {entries bases : List Path} {time nowUnix effectiveGrace : Nat}
    (hstart : ∃ earlier listed, start = earlier ++ [(listed, .listed entries)])
    (hbase : indexDir ∉ bases) (hdue : saturatingAdd time effectiveGrace ≤ nowUnix)
    (hnames : ∀ name, name ∈ names) (dueAsUnregistered : Bool) :
    Triple Others (fun progress => Guarded rootOf start indexDir names (some time) progress ∧
        BasesOk start entries bases progress.log)
      (removeLocked indexDir nowUnix effectiveGrace (stillGone rootOf indexDir dueAsUnregistered))
      fun _ => Guarded rootOf start indexDir [] none := by
  apply Triple.bind
  · exact (stillGone_spec dueAsUnregistered).frame fun _ _ => basesOk_mono
  · intro gone
    cases gone with
    | false =>
      apply Triple.bind
      · exact unlock_spec.conseq (fun _ h => h.1.1) fun _ _ h => h
      · intro _
        exact Triple.ret fun _ h => h.release
    | true =>
      apply Triple.bind
      · have hgone : Triple Others (Guarded rootOf start indexDir names (some time))
            (change .other id) fun _ => Guarded rootOf start indexDir names (some time) := by
          apply change_spec
          · exact List.Subset.refl _
          · exact fun _ _ => .inl rfl
          · exact fun _ _ _ h => h
        exact ((hgone.frame fun _ _ => basesOk_mono).frame fun _ _ => rechecked_mono).conseq
          (fun _ h => ⟨⟨h.1.1, h.2⟩, h.1.2 rfl⟩) fun _ _ h => h
      · intro _
        apply Triple.bind
        · exact removeStores_spec hstart hbase hdue hnames
        · intro _
          apply Triple.bind
          · exact unlock_spec
          · intro _
            apply Triple.bind
            · exact removeDir_spec
            · intro _
              exact Triple.ret fun _ h => h

theorem removeUnusedIndex_spec {entries bases : List Path} {time nowUnix effectiveGrace : Nat}
    (hstart : ∃ earlier listed, start = earlier ++ [(listed, .listed entries)])
    (hbase : indexDir ∉ bases) (hdue : saturatingAdd time effectiveGrace ≤ nowUnix)
    (dueAsUnregistered : Bool) :
    Triple Others (fun progress => Guarded rootOf start indexDir [] (some time) progress ∧
        BasesOk start entries bases progress.log)
      (removeUnusedIndex indexDir nowUnix effectiveGrace
        (stillGone rootOf indexDir dueAsUnregistered))
      fun _ => Guarded rootOf start indexDir [] none := by
  have hbases : ∀ log log', log <+: log' → BasesOk start entries bases log →
      BasesOk start entries bases log' :=
    fun _ _ => basesOk_mono
  have hjob : ∀ kind, Triple Others (Guarded rootOf start indexDir [] (some time))
      (observe (fun _ => .other) fun world => world.jobIsActive indexDir kind)
      fun _ => Guarded rootOf start indexDir [] (some time) :=
    fun _ => observe_keeps (fun _ => trivial) fun _ => trivial
  apply Triple.bind
  · have hclose : Triple Others (Guarded rootOf start indexDir [] (some time))
        (change .other id) fun _ => Guarded rootOf start indexDir [] (some time) := by
      apply change_spec
      · exact List.Subset.refl _
      · exact fun _ _ => .inl rfl
      · exact fun _ _ _ h => h
    exact hclose.frame hbases
  · intro _
    apply Triple.bind
    · exact (hjob .indexing).frame hbases
    · intro indexing
      cases indexing with
      | true => exact Triple.ret fun _ h => h.1.release
      | false =>
        apply Triple.bind
        · exact (hjob .enhancement).frame hbases
        · intro enhancing
          cases enhancing with
          | true => exact Triple.ret fun _ h => h.1.release
          | false =>
            apply Triple.bind
            · exact (takeLock_spec .index).frame hbases
            · intro index
              cases index with
              | some removal => exact Triple.ret fun _ h => h.1.release
              | none =>
                apply Triple.bind
                · exact (takeLock_spec .enhancement).frame hbases
                · intro enhancement
                  cases enhancement with
                  | some removal =>
                    apply Triple.bind
                    · exact unlock_spec.conseq (fun _ h => h.1) fun _ _ h => h
                    · intro _
                      exact Triple.ret fun _ h => h.release
                  | none =>
                    apply removeLocked_spec hstart hbase hdue
                    intro name
                    cases name <;> simp

/-! ## The loop -/

/-- Only an index that is due, and no base of a live overlay, comes to the removal. -/
theorem collectDue_spec {entries bases : List Path} {time nowUnix grace effectiveGrace : Nat}
    (hstart : ∃ earlier listed, start = earlier ++ [(listed, .listed entries)])
    (hdue : saturatingAdd time effectiveGrace ≤ nowUnix) (state : PassState Path) :
    Triple Others (fun progress => Guarded rootOf start indexDir [] (some time) progress ∧
        BasesOk start entries bases progress.log)
      (collectDue rootOf nowUnix grace bases indexDir time effectiveGrace state)
      fun _ => Guarded rootOf start indexDir [] none := by
  unfold collectDue
  split
  · exact Triple.ret fun _ h => h.1.release
  · next hbase =>
    apply Triple.bind
    · apply removeUnusedIndex_spec hstart _ hdue
      simpa using hbase
    · intro removal
      cases removal with
      | removed => exact Triple.ret fun _ h => h
      | inUse => exact Triple.ret fun _ h => h
      | rootReturned => exact Triple.ret fun _ h => h
      | failed => exact Triple.ret fun _ h => h

omit [DecidableEq Path] in
/-- A root that is found present makes its marker stale, until the next action removes it. -/
theorem rootChecked_spec (nowUnix : Nat) :
    Triple Others (Guarded rootOf start indexDir [] none)
      (observe (.rootChecked indexDir nowUnix) fun world => world.rootIsGone (rootOf indexDir))
      fun gone progress => start <+: progress.log ∧
        (gone = true → Guarded rootOf start indexDir [] (some nowUnix) progress) ∧
        (gone = false → GcInv rootOf (some indexDir) progress) := by
  apply Triple.atomic
  intro progress met h hothers
  have hstarted := h.started.trans (List.prefix_append progress.log
    [(met, .rootChecked indexDir nowUnix (met.rootIsGone (rootOf indexDir)))])
  refine ⟨hstarted, fun hgone => ?_, fun hgone => ?_⟩
  · have hgone : met.rootIsGone (rootOf indexDir) = true := hgone
    constructor
    · apply gcInv_after h.inv hothers
      · rfl
      · nofun
      · intro other time _ htime
        exact .inl ⟨nofun, htime, fun _ hevent => by simp [hgone] at hevent⟩
    · exact hstarted
    · nofun
    · intro time htime
      obtain rfl := Option.some.inj htime
      show MissingSince (progress.log ++ [(met, .rootChecked indexDir nowUnix
        (met.rootIsGone (rootOf indexDir)))]) indexDir nowUnix
      rw [hgone]
      exact missingSince_checked
  · apply gcInv_after h.inv hothers
    · rfl
    · nofun
    · intro other time hother htime
      left
      refine ⟨nofun, htime, fun _ hevent => hother ?_⟩
      injection hevent with heq
      rw [heq]

theorem clearMarker_spec :
    Triple Others (fun progress => start <+: progress.log ∧
        GcInv rootOf (some indexDir) progress)
      (change .other fun world => { world with marker := setAt world.marker indexDir none })
      fun _ => Guarded rootOf start indexDir [] none := by
  apply Triple.atomic
  intro progress met h hothers
  constructor
  · apply gcInv_after h.2 hothers
    · trivial
    · nofun
    · intro other time _ htime
      left
      by_cases heq : other = indexDir
      · simp [setAt, heq] at htime
      · refine ⟨fun hstale => heq (Option.some.inj hstale).symm, ?_, nofun⟩
        simpa [setAt, heq] using htime
  · exact h.1.trans (List.prefix_append _ _)
  · nofun
  · nofun

theorem collectEntry_spec {entries bases : List Path} (nowUnix grace : Nat)
    (hstart : ∃ earlier listed, start = earlier ++ [(listed, .listed entries)])
    (state : PassState Path) :
    Triple Others (fun progress => Guarded rootOf start indexDir [] none progress ∧
        BasesOk start entries bases progress.log)
      (collectEntry rootOf nowUnix grace bases state indexDir)
      fun _ => Guarded rootOf start indexDir [] none := by
  have hbases : ∀ log log', log <+: log' → BasesOk start entries bases log →
      BasesOk start entries bases log' :=
    fun _ _ => basesOk_mono
  apply Triple.bind
  · exact (rootChecked_spec nowUnix).frame hbases
  · intro gone
    cases gone with
    | false =>
      apply Triple.bind
      · exact clearMarker_spec.conseq (fun _ h => ⟨h.1.1, h.1.2.2 rfl⟩) fun _ _ h => h
      · intro _
        exact Triple.ret fun _ h => h
    | true =>
      apply Triple.bind
      · exact ((missingSince_spec nowUnix).frame hbases).conseq
          (fun _ h => ⟨h.1.2.1 rfl, h.2⟩) fun _ _ h => h
      · intro time
        apply Triple.bind
        · exact (worktreeIsUnregistered_spec indexDir state.registered).frame hbases
        · intro unregistered
          dsimp only
          generalize (if unregistered.1 then min grace deletedWorktreeGrace else grace) =
            effectiveGrace
          split
          · exact Triple.ret fun _ h => h.1.release
          · next hdue => exact collectDue_spec hstart (Nat.le_of_not_lt hdue) _

theorem collectEntries_spec {entries bases : List Path} (nowUnix grace : Nat)
    (hstart : ∃ earlier listed, start = earlier ++ [(listed, .listed entries)])
    (rest : List Path) (state : PassState Path) :
    Triple Others (fun progress => Guarded rootOf start indexDir [] none progress ∧
        BasesOk start entries bases progress.log)
      (collectEntries rootOf nowUnix grace bases rest state)
      fun _ => GcInv rootOf none := by
  induction rest generalizing indexDir state with
  | nil => exact Triple.ret fun _ h => h.1.inv
  | cons next rest ih =>
    apply Triple.bind
    · have hentry : Triple Others (fun progress => Guarded rootOf start next [] none progress ∧
            BasesOk start entries bases progress.log)
          (collectEntry rootOf nowUnix grace bases state next)
          fun _ => Guarded rootOf start next [] none :=
        collectEntry_spec nowUnix grace hstart state
      have hbases : ∀ log log', log <+: log' → BasesOk start entries bases log →
          BasesOk start entries bases log' :=
        fun _ _ => basesOk_mono
      exact (hentry.frame hbases).conseq (fun _ h => ⟨⟨h.1.release, h.2⟩, h.2⟩) fun _ _ h => h
    · intro result
      cases result with
      | none => exact Triple.ret fun _ h => h.1.inv
      | some state => exact ih state

/-! ## Whole passes -/

omit [DecidableEq Path] in
/-- The log of the pass begins after its listing. -/
theorem listed_spec :
    Triple Others (GcInv rootOf none) (observe .listed fun world => world.entries)
      fun entries progress => ∃ start,
        (∃ earlier listed, start = earlier ++ [(listed, .listed entries)]) ∧
          start <+: progress.log ∧ GcInv rootOf none progress := by
  apply Triple.atomic
  intro progress met h hothers
  refine ⟨_, ⟨progress.log, met, rfl⟩, List.prefix_refl _, ?_⟩
  apply gcInv_after h hothers
  · rfl
  · nofun
  · exact fun other time _ htime => .inl ⟨nofun, htime, nofun⟩

theorem collectOrphanedIndexesAt_spec (nowUnix grace : Nat) :
    Triple Others (GcInv rootOf none) (collectOrphanedIndexesAt rootOf nowUnix grace)
      fun _ => GcInv rootOf none := by
  apply Triple.bind
  · exact listed_spec
  · intro entries
    apply Triple.exists_pre
    intro start
    cases entries with
    | nil => exact Triple.ret fun _ h => h.2.2
    | cons indexDir entries =>
      apply Triple.of_fact
      intro hstart
      apply Triple.bind
      · have hbases : Triple Others (Guarded rootOf start indexDir [] none)
            (liveBases rootOf (indexDir :: entries)) _ :=
          liveBases_spec (indexDir :: entries)
        apply hbases.conseq
        · intro progress h
          exact ⟨h.2, h.1, fun _ hname => absurd hname List.not_mem_nil, nofun⟩
        · exact fun _ _ h => h
      · exact fun bases => collectEntries_spec nowUnix grace hstart (indexDir :: entries) _

theorem collectPasses_spec (passes : List (Nat × Nat)) :
    Triple Others (GcInv rootOf none) (collectPasses rootOf passes) fun _ => GcInv rootOf none := by
  induction passes with
  | nil => exact Triple.ret fun _ h => h
  | cons pass passes ih =>
    apply Triple.bind
    · exact collectOrphanedIndexesAt_spec pass.1 pass.2
    · exact fun _ => ih

end Parts

/-! ## Removals -/

/-- The index `0`, and its overlay `1`. Nothing has made their `index.lock` yet. -/
private def orphanedPair (entries : List Nat) : GcWorld Nat where
  entries := entries
  rootIsGone _ := true
  marker _ := none
  baseRef indexDir := if indexDir = 1 then some ⟨0, 5⟩ else none
  worktrees _ := none
  comparablePath := id
  jobIsActive _ _ := false
  lock _ name := if name = .enhancement then .free else .absent

/-- Before one action the roots return and a process makes and takes the missing locks; before
    every other the roots are gone, and that process has dropped them. -/
private def returnsAt (moment n : Nat) (world : GcWorld Nat) : GcWorld Nat :=
  { world with
    rootIsGone := fun _ => decide (n ≠ moment)
    lock := fun indexDir name =>
      if n = moment then
        if world.lock indexDir name = .absent then .other else world.lock indexDir name
      else if world.lock indexDir name = .other then .free else world.lock indexDir name }

private theorem returnsAt_obeys (moment : Nat) : Obeys Others (returnsAt moment) := by
  intro n world
  constructor
  · exact fun _ => .inl rfl
  · intro indexDir name
    by_cases hmoment : n = moment
    · by_cases habsent : world.lock indexDir name = .absent
      · simp [returnsAt, hmoment, habsent]
      · simp [returnsAt, hmoment, habsent]
    · by_cases hother : world.lock indexDir name = .other
      · simp [returnsAt, hmoment, hother]
      · simp [returnsAt, hmoment, hother]

end Gc

end Ivygrep.Native
