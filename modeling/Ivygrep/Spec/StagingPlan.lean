import Ivygrep.Native.Staging

/-!
# Promotion plans

The paths of a promotion, with the facts that keep its moves apart, and what the live
artifacts look like in the middle of one: which of them are moved to the backup
directory, which are fresh from the staging directory, and which are torn, that is
partly removed by a rollback.
-/

namespace Ivygrep.Native

open ForStd.FileTree (Apart Moved SameOutside apart_of_name_ne apart_of_length_eq)

/-- The paths that one promotion moves, what was there before it, and what it publishes
    from the staging directory. Artifacts lie in the index directory, staged paths in the
    staging directory. -/
structure Plan where
  indexDir : Path
  stagingName : Str
  backupName : Str
  artifacts : List Path
  promotions : List (Path × Path)
  old : Path → Option FileTree
  source : Path → Option FileTree
  name_ne : stagingName ≠ backupName
  artifact_eq : ∀ a ∈ artifacts, ∃ name, a = indexDir ++ [name] ∧
    name ≠ stagingName ∧ name ≠ backupName
  artifacts_nodup : artifacts.Nodup
  live_mem : ∀ p ∈ promotions, p.2 ∈ artifacts
  live_nodup : (promotions.map Prod.snd).Nodup
  staged_eq : ∀ p ∈ promotions, ∃ name, p.1 = indexDir ++ [stagingName, name]
  staged_nodup : (promotions.map Prod.fst).Nodup

namespace Plan

variable (plan : Plan)

def stagingDir : Path := plan.indexDir ++ [plan.stagingName]

def backupDir : Path := plan.indexDir ++ [plan.backupName]

/-- The backup path of the artifact at an index. -/
def backupPath (index : Nat) : Path := plan.backupDir ++ [decimal index]

/-- A path that no part of a promotion reaches. -/
def Outside (path : Path) : Prop :=
  (∀ a ∈ plan.artifacts, Apart a path) ∧ Apart plan.stagingDir path ∧
    Apart plan.backupDir path

/-- Those of the indexed artifacts that exist before the promotion, with their backup
    paths. -/
def backupsOf (entries : List (Path × Nat)) : List (Path × Path) :=
  (entries.filter fun entry => (plan.old entry.1).isSome).map fun entry =>
    (entry.1, plan.backupPath entry.2)

def backups : List (Path × Path) := plan.backupsOf plan.artifacts.zipIdx

variable {plan}

/-! ## Paths that stay apart -/

theorem artifact_apart {a b : Path} (ha : a ∈ plan.artifacts) (hb : b ∈ plan.artifacts)
    (hne : a ≠ b) : Apart a b := by
  obtain ⟨m, hm, -⟩ := plan.artifact_eq a ha
  obtain ⟨n, hn, -⟩ := plan.artifact_eq b hb
  exact apart_of_length_eq (by simp [hm, hn]) hne

theorem artifact_apart_staging {a : Path} (ha : a ∈ plan.artifacts) (below : Path) :
    Apart a (plan.stagingDir ++ below) := by
  obtain ⟨name, rfl, hname, -⟩ := plan.artifact_eq a ha
  unfold stagingDir
  rw [List.append_assoc]
  exact apart_of_name_ne plan.indexDir hname [] below

theorem artifact_apart_backup {a : Path} (ha : a ∈ plan.artifacts) (below : Path) :
    Apart a (plan.backupDir ++ below) := by
  obtain ⟨name, rfl, -, hname⟩ := plan.artifact_eq a ha
  unfold backupDir
  rw [List.append_assoc]
  exact apart_of_name_ne plan.indexDir hname [] below

variable (plan) in
theorem staging_apart_backup (below below' : Path) :
    Apart (plan.stagingDir ++ below) (plan.backupDir ++ below') := by
  unfold stagingDir backupDir
  rw [List.append_assoc, List.append_assoc]
  exact apart_of_name_ne plan.indexDir plan.name_ne below below'

theorem artifact_ne_nil {a : Path} (ha : a ∈ plan.artifacts) : a ≠ [] := by
  obtain ⟨name, rfl, -⟩ := plan.artifact_eq a ha
  simp

theorem artifact_dropLast {a : Path} (ha : a ∈ plan.artifacts) : a.dropLast = plan.indexDir := by
  obtain ⟨name, rfl, -⟩ := plan.artifact_eq a ha
  simp

theorem artifact_not_prefix_indexDir {a : Path} (ha : a ∈ plan.artifacts) :
    ¬ a <+: plan.indexDir := by
  obtain ⟨name, rfl, -⟩ := plan.artifact_eq a ha
  intro hpre
  simpa using hpre.length_le

/-- A staged path is inside the staging directory. -/
theorem staged_below {p : Path × Path} (hp : p ∈ plan.promotions) :
    ∃ name, p.1 = plan.stagingDir ++ [name] := by
  obtain ⟨name, hname⟩ := plan.staged_eq p hp
  exact ⟨name, by rw [hname]; simp [stagingDir]⟩

theorem staged_apart {p q : Path × Path} (hp : p ∈ plan.promotions)
    (hq : q ∈ plan.promotions) (hne : p.1 ≠ q.1) : Apart p.1 q.1 := by
  obtain ⟨m, hm⟩ := plan.staged_eq p hp
  obtain ⟨n, hn⟩ := plan.staged_eq q hq
  exact apart_of_length_eq (by simp [hm, hn]) hne

theorem decimal_injective {m n : Nat} (h : decimal m = decimal n) : m = n := by
  have hdigits := congrArg (Nat.ofDigitChars 10 · 0) h
  simpa only [decimal, Nat.ofDigitChars_ten_toDigits] using hdigits

theorem backupPath_apart {m n : Nat} (h : m ≠ n) :
    Apart (plan.backupPath m) (plan.backupPath n) := by
  apply apart_of_length_eq (by simp [backupPath])
  intro heq
  exact h (decimal_injective (by simpa [backupPath] using heq))

theorem mem_backups {b : Path × Path} :
    b ∈ plan.backups ↔ ∃ index, (b.1, index) ∈ plan.artifacts.zipIdx ∧
      (plan.old b.1).isSome ∧ b.2 = plan.backupPath index := by
  unfold backups backupsOf
  rw [List.mem_map]
  constructor
  · intro hout
    obtain ⟨entry, hentry, hb⟩ := hout
    rw [List.mem_filter] at hentry
    subst hb
    exact ⟨entry.2, hentry.1, hentry.2, rfl⟩
  · intro hout
    obtain ⟨index, hindex, hsome, hb⟩ := hout
    exact ⟨(b.1, index), List.mem_filter.mpr ⟨hindex, hsome⟩, by rw [← hb]⟩

theorem fst_mem_artifacts {b : Path × Path} (h : b ∈ plan.backups) :
    b.1 ∈ plan.artifacts := by
  obtain ⟨index, hindex, -⟩ := mem_backups.mp h
  exact List.fst_mem_of_mem_zipIdx hindex

/-- Every artifact that exists has a backup. -/
theorem mem_map_backups {a : Path} (ha : a ∈ plan.artifacts)
    (hsome : (plan.old a).isSome) : a ∈ plan.backups.map Prod.fst := by
  obtain ⟨index, hlt, rfl⟩ := List.mem_iff_getElem.mp ha
  rw [List.mem_map]
  refine ⟨(plan.artifacts[index], plan.backupPath index), mem_backups.mpr ⟨index, ?_, hsome, rfl⟩,
    rfl⟩
  exact List.mk_mem_zipIdx_iff_getElem?.mpr (List.getElem?_eq_getElem hlt)

/-- The backups are of different artifacts, at different paths. -/
theorem backups_pairwise :
    plan.backups.Pairwise fun (b c : Path × Path) => b.1 ≠ c.1 ∧ Apart b.2 c.2 := by
  unfold backups backupsOf
  rw [List.pairwise_map]
  apply List.Pairwise.filter
  rw [List.pairwise_iff_getElem]
  intro i j hi hj hij
  simp only [List.getElem_zipIdx, Nat.zero_add]
  constructor
  · intro heq
    have := (List.Nodup.getElem_inj_iff plan.artifacts_nodup).mp heq
    omega
  · exact backupPath_apart (by omega)

/-! ## The live artifacts in the middle of a promotion -/

variable (plan) in
/-- The artifacts in the tree `now`: those of `moved` are in the backup directory, those
    of `fresh` hold what they publish, and nothing is known of those of `torn`. -/
structure Live (now : FileTree) (moved fresh : List (Path × Path)) (torn : List Path) : Prop where
  kept : ∀ a ∈ plan.artifacts, a ∉ moved.map Prod.fst → a ∉ fresh.map Prod.snd → a ∉ torn →
    now.get a = plan.old a
  absent : ∀ a ∈ moved.map Prod.fst, a ∉ fresh.map Prod.snd → a ∉ torn → now.get a = none
  fresh : ∀ p ∈ fresh, now.get p.2 = plan.source p.1 ∧ (plan.source p.1).isSome
  outside : ∀ path, plan.Outside path → now.get path = plan.old path

/-- Before the promotion, every artifact is what it was. -/
theorem Live.of_old {now : FileTree} (h : ∀ a ∈ plan.artifacts, now.get a = plan.old a)
    (houtside : ∀ path, plan.Outside path → now.get path = plan.old path) :
    plan.Live now [] [] [] :=
  ⟨fun a ha _ _ _ => h a ha, fun _ ha => absurd ha (by simp), fun _ hp => absurd hp (by simp),
    houtside⟩

variable (plan) in
/-- The backed up artifacts are where `preserveArtifacts` put them. -/
def Stored (now : FileTree) (moved : List (Path × Path)) : Prop :=
  ∀ b ∈ moved, now.get b.2 = plan.old b.1

variable {now next : FileTree} {moved fresh : List (Path × Path)} {torn : List Path}

/-- A change inside the staging or the backup directory concerns no artifact. -/
theorem Live.sameOutside (h : plan.Live now moved fresh torn) {dir : Path}
    (hdir : dir = plan.stagingDir ∨ dir = plan.backupDir) (hsame : SameOutside dir now next)
    (hmoved : ∀ b ∈ moved, b.1 ∈ plan.artifacts) (hfresh : ∀ p ∈ fresh, p.2 ∈ plan.artifacts) :
    plan.Live next moved fresh torn := by
  have hget : ∀ a ∈ plan.artifacts, next.get a = now.get a := by
    intro a ha
    apply hsame.get
    cases hdir with
    | inl heq =>
      have hapart := (artifact_apart_staging ha []).symm
      rwa [List.append_nil, ← heq] at hapart
    | inr heq =>
      have hapart := (artifact_apart_backup ha []).symm
      rwa [List.append_nil, ← heq] at hapart
  constructor
  · intro a ha hmoved hfresh htorn
    rw [hget a ha]
    exact h.kept a ha hmoved hfresh htorn
  · intro a ha hfresh htorn
    obtain ⟨b, hb, rfl⟩ := List.mem_map.mp ha
    rw [hget _ (hmoved b hb)]
    exact h.absent _ ha hfresh htorn
  · intro p hp
    rw [hget _ (hfresh p hp)]
    exact h.fresh p hp
  · intro path hpath
    rw [hsame.get path]
    · exact h.outside path hpath
    · cases hdir with
      | inl heq => rw [heq]; exact hpath.2.1
      | inr heq => rw [heq]; exact hpath.2.2

/-- A live artifact moves to the backup directory. -/
theorem Live.preserve (h : plan.Live now moved [] []) {a backup : Path} {below : Path}
    (ha : a ∈ plan.artifacts) (hmoved : ∀ b ∈ moved, b.1 ∈ plan.artifacts)
    (hbackup : backup = plan.backupDir ++ below) (hmove : Moved now next a backup) :
    plan.Live next (moved ++ [(a, backup)]) [] [] := by
  have hget : ∀ b ∈ plan.artifacts, b ≠ a → next.get b = now.get b := by
    intro b hb hne
    apply hmove.other b (artifact_apart ha hb hne.symm)
    rw [hbackup]
    exact (artifact_apart_backup hb below).symm
  constructor
  · intro b hb hnot hfresh htorn
    rw [List.map_append, List.mem_append, not_or] at hnot
    rw [hget b hb (by simpa using hnot.2)]
    exact h.kept b hb hnot.1 hfresh htorn
  · intro b hb hfresh htorn
    by_cases hab : b = a
    · rw [hab]
      exact hmove.src_eq
    · have hold : b ∈ moved.map Prod.fst := by simpa [hab] using hb
      obtain ⟨c, hc, rfl⟩ := List.mem_map.mp hold
      rw [hget _ (hmoved c hc) hab]
      exact h.absent _ hold hfresh htorn
  · intro p hp
    exact absurd hp (by simp)
  · intro path hpath
    rw [hmove.other path (hpath.1 a ha)]
    · exact h.outside path hpath
    · rw [hbackup]
      exact hpath.2.2.append below

/-- A backup moves back to its live path. -/
theorem Live.restore {a backup : Path} {below : Path}
    (h : plan.Live now (moved ++ [(a, backup)]) [] []) (ha : a ∈ plan.artifacts)
    (hmoved : ∀ b ∈ moved, b.1 ∈ plan.artifacts ∧ b.1 ≠ a)
    (hbackup : backup = plan.backupDir ++ below) (hmove : Moved now next backup a)
    (hstored : now.get backup = plan.old a) : plan.Live next moved [] [] := by
  have hget : ∀ b ∈ plan.artifacts, b ≠ a → next.get b = now.get b := by
    intro b hb hne
    refine hmove.other b ?_ (artifact_apart ha hb hne.symm)
    rw [hbackup]
    exact (artifact_apart_backup hb below).symm
  constructor
  · intro b hb hnot hfresh htorn
    by_cases hab : b = a
    · rw [hab, hmove.dst_eq, hstored]
    · rw [hget b hb hab]
      exact h.kept b hb (by simpa [hab] using hnot) hfresh htorn
  · intro b hb hfresh htorn
    obtain ⟨c, hc, rfl⟩ := List.mem_map.mp hb
    rw [hget _ (hmoved c hc).1 (hmoved c hc).2]
    exact h.absent _ (by rw [List.map_append]; exact List.mem_append_left _ hb) hfresh htorn
  · intro p hp
    exact absurd hp (by simp)
  · intro path hpath
    rw [hmove.other path _ (hpath.1 a ha)]
    · exact h.outside path hpath
    · rw [hbackup]
      exact hpath.2.2.append below

/-- A staged path moves to its live path. -/
theorem Live.promote (h : plan.Live now moved fresh []) {p : Path × Path}
    (hp : p ∈ plan.promotions) (hfresh : ∀ q ∈ fresh, q ∈ plan.promotions ∧ q.2 ≠ p.2)
    (hmoved : ∀ b ∈ moved, b.1 ∈ plan.artifacts) (hmove : Moved now next p.1 p.2)
    (hstaged : now.get p.1 = plan.source p.1) : plan.Live next moved (fresh ++ [p]) [] := by
  obtain ⟨name, hname⟩ := staged_below hp
  have hlive := plan.live_mem p hp
  have hget : ∀ b ∈ plan.artifacts, b ≠ p.2 → next.get b = now.get b := by
    intro b hb hne
    refine hmove.other b ?_ (artifact_apart hlive hb hne.symm)
    rw [hname]
    exact (artifact_apart_staging hb [name]).symm
  constructor
  · intro b hb hnot hold htorn
    rw [List.map_append, List.mem_append, not_or] at hold
    rw [hget b hb (by simpa using hold.2)]
    exact h.kept b hb hnot hold.1 htorn
  · intro b hb hold htorn
    rw [List.map_append, List.mem_append, not_or] at hold
    obtain ⟨c, hc, rfl⟩ := List.mem_map.mp hb
    rw [hget _ (hmoved c hc) (by simpa using hold.2)]
    exact h.absent _ hb hold.1 htorn
  · intro q hq
    cases List.mem_append.mp hq with
    | inl hq =>
      rw [hget _ (plan.live_mem q (hfresh q hq).1) (hfresh q hq).2]
      exact h.fresh q hq
    | inr hq =>
      rw [List.mem_singleton.mp hq, hmove.dst_eq, ← hstaged]
      exact ⟨rfl, hmove.isSome⟩
  · intro path hpath
    rw [hmove.other path _ (hpath.1 _ hlive)]
    · exact h.outside path hpath
    · rw [hname]
      exact hpath.2.1.append [name]

/-- A promoted path is partly removed. -/
theorem Live.tear {p : Path × Path} (h : plan.Live now moved (fresh ++ [p]) [])
    (hp : p ∈ plan.promotions) (hfresh : ∀ q ∈ fresh, q ∈ plan.promotions ∧ q.2 ≠ p.2)
    (hmoved : ∀ b ∈ moved, b.1 ∈ plan.artifacts) (hsame : SameOutside p.2 now next) :
    plan.Live next moved fresh [p.2] := by
  have hlive := plan.live_mem p hp
  have hget : ∀ b ∈ plan.artifacts, b ≠ p.2 → next.get b = now.get b := by
    intro b hb hne
    exact hsame.get b (artifact_apart hlive hb hne.symm)
  constructor
  · intro b hb hnot hold htorn
    have hne : b ≠ p.2 := by simpa using htorn
    rw [hget b hb hne]
    exact h.kept b hb hnot (by simpa [hne] using hold) (by simp)
  · intro b hb hold htorn
    have hne : b ≠ p.2 := by simpa using htorn
    obtain ⟨c, hc, rfl⟩ := List.mem_map.mp hb
    rw [hget _ (hmoved c hc) hne]
    exact h.absent _ hb (by simpa [hne] using hold) (by simp)
  · intro q hq
    rw [hget _ (plan.live_mem q (hfresh q hq).1) (hfresh q hq).2]
    exact h.fresh q (List.mem_append_left _ hq)
  · intro path hpath
    rw [hsame.get path (hpath.1 _ hlive)]
    exact h.outside path hpath

/-- A torn path is gone. What was there before the promotion is in the backup
    directory, if there was anything. -/
theorem Live.clear {p : Path × Path} (h : plan.Live next moved fresh [p.2])
    (hgone : next.get p.2 = none) (hold : p.2 ∉ moved.map Prod.fst → plan.old p.2 = none) :
    plan.Live next moved fresh [] := by
  constructor
  · intro b hb hnot hfresh _
    by_cases heq : b = p.2
    · rw [heq, hgone, hold (heq ▸ hnot)]
    · exact h.kept b hb hnot hfresh (by simpa using heq)
  · intro b hb hfresh _
    by_cases heq : b = p.2
    · rw [heq, hgone]
    · exact h.absent b hb hfresh (by simpa using heq)
  · exact h.fresh
  · exact h.outside

end Plan

end Ivygrep.Native
