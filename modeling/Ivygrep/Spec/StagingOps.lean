import Ivygrep.Spec.StagingPlan

/-!
# Outcomes of the file operations

One rule for each operation of `Fs`: what it changes, what it leaves alone, and which
fault a failure comes from. The rules also speak of the trees in between, which a crash
could leave behind.
-/

namespace Ivygrep.Native

open ForStd (Ends attempt)
open ForStd.FileTree (Apart Moved SameOutside)

variable {faults : Faults} {disk : Disk} {dir path : Path}

/-- Every tree since `old` differs from `old` only inside `dir`. -/
structure ChangedInside (dir : Path) (old new : Disk) : Prop where
  now : SameOutside dir old.now new.now
  states : ∀ tree ∈ new.states, tree ∈ old.states ∨ SameOutside dir old.now tree

theorem ChangedInside.refl (dir : Path) (disk : Disk) : ChangedInside dir disk disk :=
  ⟨.refl dir disk.now, fun _ htree => .inl htree⟩

theorem now_mem_states (disk : Disk) : disk.now ∈ disk.states := List.mem_cons_self

theorem ChangedInside.trans {first second third : Disk} (h : ChangedInside dir first second)
    (h' : ChangedInside dir second third) : ChangedInside dir first third := by
  constructor
  · exact h.now.trans h'.now
  · intro tree htree
    cases h'.states tree htree with
    | inl hmem => exact h.states tree hmem
    | inr hsame => exact .inr (h.now.trans hsame)

theorem mem_states_step {tree new : FileTree} (h : tree ∈ (disk.step new).states) :
    tree = new ∨ tree ∈ disk.states := by
  cases h with
  | head => exact .inl rfl
  | tail _ hpast => exact .inr hpast

/-- One change inside a directory. -/
theorem changedInside_step {new : FileTree} (h : SameOutside dir disk.now new) :
    ChangedInside dir disk (disk.step new) := by
  constructor
  · exact h
  · intro tree htree
    cases mem_states_step htree with
    | inl heq => exact .inr (heq ▸ h)
    | inr hmem => exact .inl hmem

/-- A change inside a directory is a change inside every directory above it. -/
theorem ChangedInside.above {old new : Disk} {below : Path}
    (h : ChangedInside (dir ++ below) old new) : ChangedInside dir old new := by
  have hlift : ∀ {tree : FileTree}, SameOutside (dir ++ below) old.now tree →
      SameOutside dir old.now tree := by
    intro tree hsame
    constructor
    · intro q hq
      exact hsame.get q (hq.append below)
    · intro q hq
      exact hsame.isDir q fun hpre => hq ((List.prefix_append dir below).trans hpre)
  constructor
  · exact hlift h.now
  · intro tree htree
    cases h.states tree htree with
    | inl hmem => exact .inl hmem
    | inr hsame => exact .inr (hlift hsame)

/-! ## Building blocks -/

theorem perform_ends (op : FsOp) (change : FileTree → Option FileTree) :
    Ends (perform faults op change) disk
      (fun _ new => ∃ tree, change disk.now = some tree ∧ new = disk.step tree)
      (fun _ new => new = disk ∧ (faults.fails op ∨ change disk.now = none)) := by
  unfold Ends perform
  cases hfails : faults.fails op with
  | true => exact ⟨rfl, .inl rfl⟩
  | false =>
    cases hchange : change disk.now with
    | none => exact ⟨rfl, .inr rfl⟩
    | some tree => exact ⟨tree, rfl, rfl⟩

theorem ends_withContext {α : Type} {x : Fs α} {wrap : StagingError → StagingError}
    {ok : α → Disk → Prop} {err : Disk → Prop} (h : Ends x disk ok fun _ => err) :
    Ends (withContext wrap x) disk ok fun _ => err := by
  unfold withContext
  apply Ends.bind _ h.attempt
  intro result new hresult
  cases hresult with
  | inl hok =>
    obtain ⟨a, rfl, ha⟩ := hok
    exact Ends.pure ha
  | inr herr =>
    obtain ⟨error, rfl, herror⟩ := herr
    exact Ends.throw herror

theorem ends_ignore {x : Fs Unit} {post : Disk → Prop} {err : StagingError → Disk → Prop}
    (h : Ends x disk (fun _ => post) fun _ => post) : Ends (ignore x) disk (fun _ => post) err := by
  unfold ignore
  apply Ends.bind _ h.attempt
  intro result new hresult
  apply Ends.pure
  cases hresult with
  | inl hok => exact hok.choose_spec.2
  | inr herr => exact herr.choose_spec.2

/-! ## Operations -/

theorem writeFile_ends (content : List UInt8) (below : Path) :
    Ends (writeFile faults (dir ++ below) content) disk
      (fun _ new => ChangedInside (dir ++ below) disk new ∧
        (below ≠ [] → new.now.get (dir ++ below) = some (.file content)))
      (fun _ new => ChangedInside (dir ++ below) disk new) := by
  have hset : ∀ (tree : FileTree) (value : Option FileTree),
      SameOutside (dir ++ below) tree (tree.set (dir ++ below) value) := by
    intro tree value
    simpa using ForStd.FileTree.sameOutside_set tree (dir ++ below) [] value
  unfold writeFile
  refine Ends.bind (fun _ new => ChangedInside (dir ++ below) disk new) ?_ ?_
  · apply (perform_ends _ _).mono
    · intro _ new hout
      obtain ⟨tree, htree, hnew⟩ := hout
      obtain ⟨-, rfl⟩ := ForStd.FileTree.write_eq_some htree
      rw [hnew]
      exact changedInside_step (hset _ _)
    · intro _ new hnew
      rw [hnew.1]
      exact .refl _ disk
  · intro _ middle hmiddle
    apply (perform_ends _ _).mono
    · intro _ new hout
      obtain ⟨tree, htree, hnew⟩ := hout
      obtain ⟨hparent, rfl⟩ := ForStd.FileTree.write_eq_some htree
      rw [hnew]
      refine ⟨hmiddle.trans (changedInside_step (hset _ _)), fun hbelow => ?_⟩
      obtain ⟨above, name, rfl⟩ := (List.eq_nil_or_concat below).resolve_left hbelow
      rw [List.concat_eq_append, ← List.append_assoc] at hparent ⊢
      exact ForStd.FileTree.get_set_self (by simpa using hparent) _
    · intro _ new hnew
      rw [hnew.1]
      exact hmiddle

theorem createDir_ends (parent : Path) (name : Str) (hpath : path = parent ++ [name]) :
    Ends (createDir faults path) disk
      (fun _ new => ChangedInside path disk new ∧ disk.now.get path = none ∧
        new.now.isDir path)
      (fun _ new => new = disk) := by
  apply (perform_ends _ _).mono
  · intro _ new hout
    obtain ⟨tree, htree, hnew⟩ := hout
    obtain ⟨hparent, hfree, rfl⟩ := ForStd.FileTree.createDir_eq_some htree
    rw [hnew]
    refine ⟨changedInside_step ?_, hfree, ?_⟩
    · simpa using ForStd.FileTree.sameOutside_set disk.now path [] (some (.dir []))
    · subst hpath
      have hself : (disk.now.set (parent ++ [name]) (some (.dir []))).get (parent ++ [name]) =
          some (.dir []) := ForStd.FileTree.get_set_self (by simpa using hparent) _
      simp [Disk.step, ForStd.FileTree.isDir, hself]
  · intro _ new hnew
    exact hnew.1

theorem rename_ends {src dst : Path} (hsrc : src ≠ []) (hapart : Apart src dst) :
    Ends (rename faults src dst) disk
      (fun _ new => Moved disk.now new.now src dst ∧ new = disk.step new.now)
      (fun _ new => new = disk ∧
        (faults.fails (.rename src dst) ∨ disk.now.rename src dst = none)) := by
  apply (perform_ends _ _).mono
  · intro _ new hout
    obtain ⟨tree, htree, hnew⟩ := hout
    rw [hnew]
    exact ⟨ForStd.FileTree.moved_of_rename hsrc hapart htree, rfl⟩
  · intro _ new hnew
    exact hnew

/-! ## Removal -/

/-- One of the steps of removing a path fails. -/
def Faults.RemovalFails (faults : Faults) (path : Path) : Prop :=
  faults.fails (.removeFile path) ∨ faults.fails (.removeDir path) ∨
    ∃ (name : Str) (below : Path), faults.fails (.unlink (path ++ name :: below))

theorem unlinkAll_ends (entries : List (Str × Path)) :
    Ends (unlinkAll faults dir entries) disk
      (fun _ new => ChangedInside dir disk new ∧ new.now.isDir dir = disk.now.isDir dir)
      (fun _ new => ChangedInside dir disk new ∧ faults.RemovalFails dir) := by
  induction entries generalizing disk with
  | nil => exact Ends.pure ⟨.refl dir disk, rfl⟩
  | cons entry entries ih =>
    unfold unlinkAll
    refine Ends.bind (fun _ new => ChangedInside dir disk new ∧
      new.now.isDir dir = disk.now.isDir dir) ?_ ?_
    · apply (perform_ends _ _).mono
      · intro _ new hout
        obtain ⟨tree, htree, hnew⟩ := hout
        cases htree
        rw [hnew]
        cases hunlink : disk.now.unlink (dir ++ entry.1 :: entry.2) with
        | none => exact ⟨changedInside_step (.refl dir disk.now), rfl⟩
        | some tree =>
          have htree := ForStd.FileTree.unlink_eq_some hunlink
          subst htree
          refine ⟨changedInside_step (ForStd.FileTree.sameOutside_set _ _ _ _), ?_⟩
          apply ForStd.FileTree.isDir_set
          intro hpre
          simpa using hpre.length_le
      · intro _ new hnew
        rw [hnew.1]
        refine ⟨.refl dir disk, .inr (.inr ⟨entry.1, entry.2, ?_⟩)⟩
        exact hnew.2.resolve_right (by simp)
    · intro _ middle hmiddle
      apply ih.mono
      · intro _ new hnew
        exact ⟨hmiddle.1.trans hnew.1, hnew.2.trans hmiddle.2⟩
      · intro _ new hnew
        exact ⟨hmiddle.1.trans hnew.1, hnew.2⟩

theorem removeDirAll_ends (hdir : dir ≠ []) :
    Ends (removeDirAll faults dir) disk
      (fun _ new => ChangedInside dir disk new ∧ new.now.get dir = none)
      (fun _ new => ChangedInside dir disk new ∧
        (disk.now.isDir dir → faults.RemovalFails dir)) := by
  unfold removeDirAll
  refine Ends.bind (fun _ new => ChangedInside dir disk new ∧
    new.now.isDir dir = disk.now.isDir dir) ?_ ?_
  · apply (unlinkAll_ends _).mono
    · intro _ new hnew
      exact hnew
    · intro _ new hnew
      exact ⟨hnew.1, fun _ => hnew.2⟩
  · intro _ middle hmiddle
    apply (perform_ends _ _).mono
    · intro _ new hout
      obtain ⟨tree, htree, hnew⟩ := hout
      split at htree
      · rename_i hisDir
        cases htree
        rw [hnew]
        refine ⟨hmiddle.1.trans (changedInside_step ?_), ?_⟩
        · simpa using ForStd.FileTree.sameOutside_set middle.now dir [] none
        · exact ForStd.FileTree.get_set_none hdir (ForStd.FileTree.get_isSome_of_isDir hisDir)
      · cases htree
    · intro _ new hnew
      rw [hnew.1]
      refine ⟨hmiddle.1, fun hisDir => ?_⟩
      rw [← hmiddle.2] at hisDir
      refine .inr (.inl (hnew.2.resolve_right ?_))
      simp [hisDir]

theorem removePathIfExists_ends (hpath : path ≠ []) :
    Ends (removePathIfExists faults path) disk
      (fun _ new => ChangedInside path disk new ∧ new.now.get path = none)
      (fun _ new => ChangedInside path disk new ∧ faults.RemovalFails path) := by
  unfold removePathIfExists
  refine Ends.bind (fun result new => new = disk ∧ result = disk.now.isDir path) ⟨rfl, rfl⟩ ?_
  intro isDirectory _ hout
  obtain ⟨hdisk, hdirectory⟩ := hout
  rw [hdisk]
  cases isDirectory with
  | true =>
    rw [if_pos rfl]
    apply (removeDirAll_ends hpath).mono
    · intro _ new hnew
      exact hnew
    · intro _ new hnew
      exact ⟨hnew.1, hnew.2 hdirectory.symm⟩
  | false =>
    rw [if_neg Bool.false_ne_true]
    refine Ends.bind (fun result new => new = disk ∧ result = (disk.now.get path).isSome)
      ⟨rfl, rfl⟩ ?_
    intro found _ hout
    obtain ⟨hdisk, hfound⟩ := hout
    rw [hdisk]
    cases hget : disk.now.get path with
    | none =>
      rw [hget] at hfound
      rw [if_neg (by simp [hfound])]
      exact Ends.pure ⟨.refl path disk, hget⟩
    | some tree =>
      rw [hget] at hfound
      rw [if_pos (by simp [hfound])]
      have hfile : disk.now.isFile path :=
        ForStd.FileTree.isFile_of_not_isDir (by simp [hget]) hdirectory.symm
      apply (perform_ends _ _).mono
      · intro _ new hout
        obtain ⟨tree, htree, hnew⟩ := hout
        rw [if_pos hfile] at htree
        cases htree
        rw [hnew]
        refine ⟨changedInside_step ?_, ?_⟩
        · simpa using ForStd.FileTree.sameOutside_set disk.now path [] none
        · exact ForStd.FileTree.get_set_none hpath (by simp [hget])
      · intro _ new hnew
        rw [hnew.1]
        exact ⟨.refl path disk, .inl (hnew.2.resolve_right (by simp [hfile]))⟩

end Ivygrep.Native
