import Ivygrep.Native.SourceWalker

/-!
# What a walk lists

A listed entry is reached through directories, each of which the entry filter and the ignore
rules let pass. A rule of the root's own list that ignores a listed entry is overridden by an
`.ignore` file or by a `.gitignore` file below the root.
-/

namespace Ivygrep.Native

variable {fs : FileSystem} {appHome : Option PathBuf} {root : List Str} {skipGitignore : Bool}

/-! ## Rule lists -/

@[simp] theorem IgnoreMatch.none_or (found : IgnoreMatch) : IgnoreMatch.none.or found = found :=
  rfl

@[simp] theorem IgnoreMatch.or_none (found : IgnoreMatch) : found.or .none = found := by
  cases found <;> rfl

/-- What says something of a path is not asked further. -/
theorem IgnoreMatch.or_of_ne_none {first : IgnoreMatch} (h : first ≠ .none)
    (second : IgnoreMatch) : first.or second = first := by
  cases first with
  | none => exact absurd rfl h
  | ignore => rfl
  | whitelist => rfl

/-- In two lists after each other, the second goes first. -/
theorem gitignoreMatched_append (first second : List IgnoreRule) (path : List Str)
    (isDir : Bool) :
    gitignoreMatched (first ++ second) path isDir =
      (gitignoreMatched second path isDir).or (gitignoreMatched first path isDir) := by
  unfold gitignoreMatched
  rw [List.reverse_append, List.find?_append]
  cases second.reverse.find? fun rule => rule.appliesTo path isDir with
  | none => simp
  | some rule => exact (IgnoreMatch.or_of_ne_none (by cases h : rule.isWhitelist <;> simp [h]) _).symm

/-- A path that a list ignores through its parents is below one that the list ignores. -/
theorem exists_ignored_of_matchedPathOrAnyParents {rules : List IgnoreRule} {path : List Str}
    {isDir : Bool} (h : matchedPathOrAnyParents rules path isDir = .ignore) :
    ∃ above, above <+: path ∧
      gitignoreMatched rules above (if above = path then isDir else true) = .ignore := by
  suffices ∀ reversed isDir, matchedFromLast rules reversed isDir = .ignore →
      ∃ above, above <+: reversed.reverse ∧
        gitignoreMatched rules above (if above = reversed.reverse then isDir else true) =
          .ignore by
    simpa using this path.reverse isDir h
  intro reversed
  induction reversed with
  | nil => exact fun isDir h => ⟨[], by simp, by simpa [matchedFromLast] using h⟩
  | cons name parent ih =>
    intro isDir h
    rw [matchedFromLast] at h
    cases hmatched : gitignoreMatched rules (name :: parent).reverse isDir with
    | ignore => exact ⟨(name :: parent).reverse, by simp, by simpa using hmatched⟩
    | whitelist =>
      rw [hmatched, IgnoreMatch.or_of_ne_none (by simp)] at h
      exact absurd h (by simp)
    | none =>
      -- The path itself is not mentioned, so a directory above it is.
      rw [hmatched, IgnoreMatch.none_or] at h
      obtain ⟨above, hprefix, habove⟩ := ih true h
      have hlength : above.length ≤ parent.length := by simpa using hprefix.length_le
      have hne : above ≠ (name :: parent).reverse := by
        intro heq
        simp [heq] at hlength
      refine ⟨above, hprefix.trans (by simp), ?_⟩
      rw [if_neg hne]
      simpa using habove

/-- Files of one name that say nothing of a path, in no directory above it. -/
theorem deepestMatch_congr {first second : List Str → List IgnoreRule} {path : List Str}
    {isDir : Bool}
    (h : ∀ dir, dir <+: path.dropLast →
      gitignoreMatched (first dir) (path.drop dir.length) isDir =
        gitignoreMatched (second dir) (path.drop dir.length) isDir) :
    IgnorePolicy.deepestMatch first path isDir = IgnorePolicy.deepestMatch second path isDir := by
  unfold IgnorePolicy.deepestMatch
  suffices ∀ (dirs : List (List Str)) (found : IgnoreMatch),
      (∀ dir ∈ dirs, dir <+: path.dropLast) →
      dirs.foldl (fun found dir =>
        (gitignoreMatched (first dir) (path.drop dir.length) isDir).or found) found =
      dirs.foldl (fun found dir =>
        (gitignoreMatched (second dir) (path.drop dir.length) isDir).or found) found from
    this _ _ fun dir hdir => (List.mem_inits dir _).mp hdir
  intro dirs
  induction dirs with
  | nil => intro found _; rfl
  | cons dir dirs ih =>
    intro found hdirs
    rw [List.foldl_cons, List.foldl_cons, h dir (hdirs dir (by simp))]
    exact ih _ fun other hother => hdirs other (List.mem_cons_of_mem _ hother)

/-- Files that say nothing of a path anywhere above it do not match it. -/
theorem deepestMatch_nothing (path : List Str) (isDir : Bool) :
    IgnorePolicy.deepestMatch (fun _ => []) path isDir = .none := by
  unfold IgnorePolicy.deepestMatch
  induction path.dropLast.inits with
  | nil => rfl
  | cons dir dirs ih => simp [gitignoreMatched]

/-- With rules in the root directory only, those decide. -/
theorem deepestMatch_root (rules : List IgnoreRule) (path : List Str) (isDir : Bool) :
    IgnorePolicy.deepestMatch (fun dir => if dir = [] then rules else []) path isDir =
      gitignoreMatched rules path isDir := by
  unfold IgnorePolicy.deepestMatch
  cases hdirs : path.dropLast.inits with
  | nil => simpa using congrArg List.length hdirs
  | cons dir dirs =>
    -- The first of the directories is the root, and no other one is.
    have hroot : dir = [] ∧ ∀ other ∈ dirs, other ≠ [] := by
      cases hpath : path.dropLast with
      | nil => simp_all
      | cons name rest =>
        rw [hpath, List.inits_cons] at hdirs
        obtain ⟨rfl, rfl⟩ := List.cons.inj hdirs
        simp
    obtain ⟨rfl, hother⟩ := hroot
    rw [List.foldl_cons]
    suffices ∀ found : IgnoreMatch, dirs.foldl (fun found dir =>
        (gitignoreMatched (if dir = [] then rules else []) (path.drop dir.length) isDir).or found)
          found = found by
      rw [this]
      simp
    clear hdirs
    induction dirs with
    | nil => intro found; rfl
    | cons dir dirs ih =>
      intro found
      rw [List.foldl_cons, if_neg (hother dir (by simp)),
        ih fun other h => hother other (List.mem_cons_of_mem _ h)]
      simp [gitignoreMatched]

/-! ## Entries on the way -/

theorem walkReaches_cons {dir rest : List Str} {name : Str}
    (h : walkReaches fs appHome root skipGitignore dir (name :: rest) = true) :
    ∃ kind, fs.symlinkMetadata (root ++ (dir ++ [name])) = some kind ∧
      yieldsEntry fs appHome root skipGitignore (dir ++ [name]) kind = true ∧
      (rest = [] ∨ kind = .directory) ∧
      walkReaches fs appHome root skipGitignore (dir ++ [name]) rest = true := by
  rw [walkReaches] at h
  cases hkind : fs.symlinkMetadata (root ++ (dir ++ [name])) with
  | none => simp [hkind] at h
  | some kind =>
    simp only [hkind, Bool.and_eq_true, Bool.or_eq_true, List.isEmpty_iff,
      decide_eq_true_eq] at h
    exact ⟨kind, rfl, h.1.1, h.1.2, h.2⟩

/-- A walk yields every entry on the way to one that it reaches. -/
theorem yieldsEntry_of_walkReaches {dir rest above : List Str}
    (h : walkReaches fs appHome root skipGitignore dir rest = true) (habove : above <+: rest)
    (hne : above ≠ []) :
    ∃ kind, fs.symlinkMetadata (root ++ (dir ++ above)) = some kind ∧
      yieldsEntry fs appHome root skipGitignore (dir ++ above) kind = true ∧
      (above = rest ∨ kind = .directory) := by
  induction rest generalizing dir above with
  | nil => exact absurd (List.prefix_nil.mp habove) hne
  | cons name rest ih =>
    obtain ⟨kind, hkind, hyields, hlast, hrest⟩ := walkReaches_cons h
    cases above with
    | nil => exact absurd rfl hne
    | cons first above =>
      obtain ⟨rfl, hrestAbove⟩ := List.cons_prefix_cons.mp habove
      by_cases hend : above = []
      · subst hend
        refine ⟨kind, hkind, hyields, hlast.imp (fun hrest => ?_) id⟩
        rw [hrest]
      · obtain ⟨kind, hkind, hyields, hlast⟩ := ih hrest hrestAbove hend
        rw [List.append_assoc, List.singleton_append] at hkind hyields
        exact ⟨kind, hkind, hyields, hlast.imp (fun heq => by rw [heq]) id⟩

/-- What a listed entry tells of the entries on the way to it. -/
theorem yieldsEntry_of_lists {rel above : List Str}
    (h : sourceWalkerLists fs appHome root skipGitignore rel = true) (habove : above <+: rel)
    (hne : above ≠ []) :
    ∃ kind, fs.symlinkMetadata (root ++ above) = some kind ∧
      yieldsEntry fs appHome root skipGitignore above kind = true ∧
      (above = rel ∨ kind = .directory) := by
  rw [sourceWalkerLists, Bool.and_eq_true] at h
  simpa using yieldsEntry_of_walkReaches h.2 habove hne

theorem ne_nil_of_lists {rel : List Str}
    (h : sourceWalkerLists fs appHome root skipGitignore rel = true) : rel ≠ [] := by
  intro hnil
  simp [sourceWalkerLists, hnil] at h

/-- No component of a listed path is `.git`. -/
theorem git_not_mem_of_lists {rel : List Str}
    (h : sourceWalkerLists fs appHome root skipGitignore rel = true) : ".git".toList ∉ rel := by
  intro hmem
  obtain ⟨before, after, rfl⟩ := List.mem_iff_append.mp hmem
  have habove : before ++ [".git".toList] <+: before ++ ".git".toList :: after := ⟨after, by simp⟩
  obtain ⟨kind, -, hyields, -⟩ := yieldsEntry_of_lists h habove (by simp)
  simp [yieldsEntry, filterEntry, fileNameOf, Option.filter] at hyields

/-- A listed entry is not in the owned storage. -/
theorem not_owned_of_lists {rel : List Str}
    (h : sourceWalkerLists fs appHome root skipGitignore rel = true) :
    isIvygrepOwnedPath fs appHome root (root ++ rel) = false := by
  obtain ⟨kind, -, hyields, -⟩ := yieldsEntry_of_lists h (List.prefix_refl rel)
    (ne_nil_of_lists h)
  simp only [yieldsEntry, filterEntry, Bool.and_eq_true, Bool.not_eq_true'] at hyields
  exact hyields.1.1.2

/-- What is not a directory is no checkout. -/
theorem isSeparateCheckout_of_not_directory {checkouts : NestedCheckouts} {rel : List Str}
    {kind : FileKind} (hkind : fs.symlinkMetadata (root ++ rel) = some kind)
    (hdirectory : kind ≠ .directory) (hsymlink : kind ≠ .symlink) :
    checkouts.isSeparateCheckout fs root rel = false := by
  unfold NestedCheckouts.isSeparateCheckout
  cases checkouts.submodulePaths with
  | none => rfl
  | some submodulePaths =>
    have hmarker : fs.symlinkMetadata (root ++ rel ++ [".git".toList]) = none :=
      fs.symlinkMetadata_below _ kind _ hkind hdirectory hsymlink
    simp only [hmarker]

/-- A listed entry, unless it is a symlink, is neither in a separate checkout nor one. -/
theorem not_nested_of_lists {rel : List Str} {kind : FileKind}
    (h : sourceWalkerLists fs appHome root skipGitignore rel = true)
    (hkind : fs.symlinkMetadata (root ++ rel) = some kind) (hsymlink : kind ≠ .symlink) :
    (NestedCheckouts.new fs root).contains fs root rel = false := by
  rw [NestedCheckouts.contains, Bool.and_eq_false_iff]
  right
  rw [List.any_eq_false]
  intro above habove hnested
  rw [List.mem_inits] at habove
  simp only [Bool.and_eq_true, Bool.not_eq_true', List.isEmpty_eq_false_iff] at hnested
  obtain ⟨found, hfound, hyields, hlast⟩ := yieldsEntry_of_lists h habove hnested.1
  by_cases hdirectory : found = .directory
  · -- The filter of the walker has looked at the directory.
    simp [yieldsEntry, filterEntry, hdirectory, hnested.2] at hyields
  · obtain rfl := hlast.resolve_right hdirectory
    rw [hkind] at hfound
    obtain rfl := Option.some.inj hfound
    rw [isSeparateCheckout_of_not_directory hkind hdirectory hsymlink] at hnested
    exact absurd hnested.2 (by simp)

/-! ## Overridden rules -/

/-- The rules of the root's own list: the exclude file, then the root `.gitignore`. -/
def IgnorePolicy.rootRules (policy : IgnorePolicy) : List IgnoreRule :=
  policy.exclude ++ policy.gitignore []

/-- An ignore file that is not in the root's own list says something of a path. -/
def IgnorePolicy.Overrides (policy : IgnorePolicy) (path : List Str) (isDir : Bool) : Prop :=
  ∃ dir, dir <+: path.dropLast ∧
    (gitignoreMatched (policy.ignoreFile dir) (path.drop dir.length) isDir ≠ .none ∨
      dir ≠ [] ∧ gitignoreMatched (policy.gitignore dir) (path.drop dir.length) isDir ≠ .none)

/-- Where nothing overrides the root's own list, that list decides. -/
theorem IgnorePolicy.matched_eq_rootRules {policy : IgnorePolicy} {path : List Str}
    {isDir : Bool} (h : ¬ policy.Overrides path isDir) :
    policy.matched path isDir = gitignoreMatched policy.rootRules path isDir := by
  have hsilent : ∀ dir, dir <+: path.dropLast →
      gitignoreMatched (policy.ignoreFile dir) (path.drop dir.length) isDir = .none ∧
      (dir ≠ [] →
        gitignoreMatched (policy.gitignore dir) (path.drop dir.length) isDir = .none) := by
    intro dir hdir
    by_contra hsays
    exact h ⟨dir, hdir, by tauto⟩
  have hignore : deepestMatch policy.ignoreFile path isDir = .none := by
    rw [← deepestMatch_nothing path isDir]
    exact deepestMatch_congr fun dir hdir => by simpa [gitignoreMatched] using (hsilent dir hdir).1
  have hgitignore : deepestMatch policy.gitignore path isDir =
      gitignoreMatched (policy.gitignore []) path isDir := by
    rw [← deepestMatch_root (policy.gitignore []) path isDir]
    refine deepestMatch_congr fun dir hdir => ?_
    by_cases hroot : dir = []
    · simp [hroot]
    · rw [if_neg hroot, (hsilent dir hdir).2 hroot]
      simp [gitignoreMatched]
  rw [IgnorePolicy.matched, hignore, hgitignore, IgnorePolicy.rootRules, gitignoreMatched_append]
  rfl

/-- The root's own list ignores a listed entry only where another ignore file overrides it,
    for the entry or for a directory on the way, or where a rule applies to the root. -/
theorem overrides_of_lists {rel : List Str} {kind : FileKind}
    (hlists : sourceWalkerLists fs appHome root false rel = true)
    (hkind : fs.symlinkMetadata (root ++ rel) = some kind) (hsymlink : kind ≠ .symlink)
    (hignored : matchedPathOrAnyParents (fs.ignorePolicy root).rootRules rel
      (fs.isDir (root ++ rel)) = .ignore) :
    gitignoreMatched (fs.ignorePolicy root).rootRules [] true = .ignore ∨
    ∃ above isDir, above <+: rel ∧ (fs.ignorePolicy root).Overrides above isDir := by
  obtain ⟨above, habove, hignored⟩ := exists_ignored_of_matchedPathOrAnyParents hignored
  by_cases hroot : above = []
  · left
    have hne := ne_nil_of_lists hlists
    subst hroot
    rwa [if_neg (Ne.symm hne)] at hignored
  · right
    obtain ⟨found, hfound, hyields, hlast⟩ := yieldsEntry_of_lists hlists habove hroot
    refine ⟨above, found = .directory, habove, ?_⟩
    by_contra hnot
    have hdir : (if above = rel then fs.isDir (root ++ rel) else true) =
        decide (found = .directory) := by
      split
      · next heq =>
        subst heq
        rw [hkind] at hfound
        obtain rfl := Option.some.inj hfound
        simp [FileSystem.isDir, fs.metadata_eq _ _ hkind hsymlink]
      · next hne => simp [hlast.resolve_left hne]
    rw [hdir, ← IgnorePolicy.matched_eq_rootRules hnot] at hignored
    simp [yieldsEntry, hignored] at hyields

end Ivygrep.Native
