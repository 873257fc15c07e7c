import Ivygrep.ForStd.List
import Ivygrep.Native.Merkle

/-!
# What a snapshot diff says

`MerkleDiff.Describes` is the meaning of a diff between two file maps. The merge loop
of `diff` and the update loop of a targeted refresh both produce a diff that
describes the change, and only one diff does.
-/

namespace Ivygrep.Native

/-- The ignore flag that a diff reports for a hash. -/
def isIgnoredHash (hash : Str) : Bool := Str.endsWith hash "-1".toList

/-- The diff lists, in key order, the changed files of `newer` with their ignore flag and
    the files of `older` that are gone. -/
structure MerkleDiff.Describes (diff : MerkleDiff) (older newer : BTreeMap Str Str) : Prop where
  added_sorted : diff.addedOrModified.Pairwise fun left right => compare left.1 right.1 = .lt
  deleted_sorted : diff.deleted.Pairwise fun left right => compare left right = .lt
  mem_added : ∀ key flag, (key, flag) ∈ diff.addedOrModified ↔
    ∃ hash, newer[key]? = some hash ∧ older[key]? ≠ some hash ∧ flag = isIgnoredHash hash
  mem_deleted : ∀ key, key ∈ diff.deleted ↔ older[key]? ≠ none ∧ newer[key]? = none

/-- Two diffs of the same maps are equal. -/
theorem MerkleDiff.Describes.unique {left right : MerkleDiff} {older newer : BTreeMap Str Str}
    (hleft : left.Describes older newer) (hright : right.Describes older newer) :
    left = right := by
  have hirrefl : ∀ key : Str, compare key key ≠ .lt := by
    intro key h
    simp [Std.ReflCmp.compare_self] at h
  have hasymm : ∀ left right : Str, compare left right = .lt → compare right left = .lt → False :=
    fun left right h₁ h₂ => by simp [Std.OrientedCmp.gt_of_lt h₁] at h₂
  have hadded : left.addedOrModified = right.addedOrModified := by
    have : Std.Irrefl fun left right : Str × Bool => compare left.1 right.1 = .lt :=
      ⟨fun pair => hirrefl pair.1⟩
    have : Std.Antisymm fun left right : Str × Bool => compare left.1 right.1 = .lt :=
      ⟨fun _ _ h₁ h₂ => (hasymm _ _ h₁ h₂).elim⟩
    refine hleft.added_sorted.eq_of_mem_iff hright.added_sorted fun pair => ?_
    rw [hleft.mem_added pair.1 pair.2, hright.mem_added pair.1 pair.2]
  have hdeleted : left.deleted = right.deleted := by
    have : Std.Irrefl fun left right : Str => compare left right = .lt := ⟨hirrefl⟩
    have : Std.Antisymm fun left right : Str => compare left right = .lt :=
      ⟨fun _ _ h₁ h₂ => (hasymm _ _ h₁ h₂).elim⟩
    refine hleft.deleted_sorted.eq_of_mem_iff hright.deleted_sorted fun key => ?_
    rw [hleft.mem_deleted, hright.mem_deleted]
  cases left
  cases right
  simp only at hadded hdeleted
  rw [hadded, hdeleted]

/-- An empty diff describes equal maps. -/
theorem MerkleDiff.Describes.eq_of_empty {older newer : BTreeMap Str Str}
    (h : MerkleDiff.Describes ⟨[], []⟩ older newer) : older = newer := by
  refine Std.ExtTreeMap.ext_getElem? fun key => ?_
  have hadded := fun flag => h.mem_added key flag
  have hdeleted := h.mem_deleted key
  simp only [List.not_mem_nil, false_iff, not_exists, not_and] at hadded hdeleted
  cases hnewer : newer[key]? with
  | none =>
    by_contra hne
    exact hdeleted hne hnewer
  | some hash =>
    by_contra hne
    exact hadded _ hash hnewer hne rfl

/-! ## The merge loop -/

/-- A file list in key order. -/
abbrev KeySorted {β : Type} (files : List (Str × β)) : Prop :=
  files.Pairwise fun left right => compare left.1 right.1 = .lt

/-- A key below the first one is not in the list. -/
private theorem not_mem_of_lt {β : Type} {key first : Str} {value : β} {rest : List (Str × β)}
    (hsorted : KeySorted ((first, value) :: rest)) (hlt : compare key first = .lt) (other : β) :
    (key, other) ∉ (first, value) :: rest := by
  have hne : ∀ other : Str, compare key other = .lt → key ≠ other := by
    rintro other h rfl
    simp [Std.ReflCmp.compare_self] at h
  rw [List.mem_cons, not_or]
  refine ⟨fun heq => hne first hlt (Prod.mk.inj heq).1, fun hmem => ?_⟩
  exact hne _ (Std.TransCmp.lt_trans hlt ((List.pairwise_cons.mp hsorted).1 _ hmem)) rfl

/-- The first key of a sorted list is not in the rest of it. -/
private theorem not_mem_tail {β : Type} {key : Str} {value : β} {rest : List (Str × β)}
    (hsorted : KeySorted ((key, value) :: rest)) (other : β) : (key, other) ∉ rest := by
  intro hmem
  have hlt := (List.pairwise_cons.mp hsorted).1 _ hmem
  simp [Std.ReflCmp.compare_self] at hlt

/-- The keys that the merge loop lists, in order. -/
theorem diffLists_sublist (old new : List (Str × Str)) :
    ((MerkleSnapshot.diffLists old new).addedOrModified.map Prod.fst).Sublist
        (new.map Prod.fst) ∧
      (MerkleSnapshot.diffLists old new).deleted.Sublist (old.map Prod.fst) := by
  fun_induction MerkleSnapshot.diffLists old new with
  | case1 new => simp [List.map_map, Function.comp_def]
  | case2 old hold => simp
  | case3 oldPath oldHash old newPath newHash new hcompare rest ih =>
    exact ⟨ih.1, ih.2.cons_cons oldPath⟩
  | case4 oldPath oldHash old newPath newHash new hcompare rest hne ih =>
    exact ⟨ih.1.cons_cons newPath, ih.2.cons oldPath⟩
  | case5 oldPath oldHash old newPath newHash new hcompare rest heq ih =>
    exact ⟨ih.1.cons newPath, ih.2.cons oldPath⟩
  | case6 oldPath oldHash old newPath newHash new hcompare rest ih =>
    exact ⟨ih.1.cons_cons newPath, ih.2⟩

/-- The merge loop lists the entries of `new` that `old` lacks, and the keys of `old`
    that `new` lacks. -/
theorem mem_diffLists (old new : List (Str × Str)) (hold : KeySorted old)
    (hnew : KeySorted new) :
    (∀ key flag, (key, flag) ∈ (MerkleSnapshot.diffLists old new).addedOrModified ↔
      ∃ hash, (key, hash) ∈ new ∧ (key, hash) ∉ old ∧ flag = isIgnoredHash hash) ∧
    ∀ key, key ∈ (MerkleSnapshot.diffLists old new).deleted ↔
      (∃ hash, (key, hash) ∈ old) ∧ ∀ hash, (key, hash) ∉ new := by
  fun_induction MerkleSnapshot.diffLists old new with
  | case1 new => simp [isIgnoredHash, eq_comm]
  | case2 old hne => simp
  | case3 oldPath oldHash old newPath newHash new hcompare rest ih =>
    -- The old path is below every new one.
    have hfresh := not_mem_of_lt hnew hcompare
    obtain ⟨hadded, hdeleted⟩ := ih hold.of_cons hnew
    refine ⟨fun key flag => ?_, fun key => ?_⟩
    · rw [hadded]
      grind
    · rw [List.mem_cons, hdeleted]
      grind
  | case4 oldPath oldHash old newPath newHash new hcompare rest hne ih =>
    obtain rfl : oldPath = newPath := Std.LawfulEqCmp.eq_of_compare hcompare
    have holdFresh := not_mem_tail hold
    have hnewFresh := not_mem_tail hnew
    obtain ⟨hadded, hdeleted⟩ := ih hold.of_cons hnew.of_cons
    refine ⟨fun key flag => ?_, fun key => ?_⟩
    · rw [List.mem_cons, hadded]
      grind [isIgnoredHash]
    · rw [hdeleted]
      grind
  | case5 oldPath oldHash old newPath newHash new hcompare rest heq ih =>
    obtain rfl : oldPath = newPath := Std.LawfulEqCmp.eq_of_compare hcompare
    have holdFresh := not_mem_tail hold
    have hnewFresh := not_mem_tail hnew
    obtain ⟨hadded, hdeleted⟩ := ih hold.of_cons hnew.of_cons
    refine ⟨fun key flag => ?_, fun key => ?_⟩
    · rw [hadded]
      grind
    · rw [hdeleted]
      grind
  | case6 oldPath oldHash old newPath newHash new hcompare rest ih =>
    -- The new path is below every old one.
    have hfresh := not_mem_of_lt hold (Std.OrientedCmp.lt_of_gt hcompare)
    obtain ⟨hadded, hdeleted⟩ := ih hold hnew.of_cons
    refine ⟨fun key flag => ?_, fun key => ?_⟩
    · rw [List.mem_cons, hadded]
      grind [isIgnoredHash]
    · rw [hdeleted]
      grind

/-- The merge loop describes the change from one map to the other. -/
theorem diffLists_describes (older newer : BTreeMap Str Str) :
    (MerkleSnapshot.diffLists older.toList newer.toList).Describes older newer := by
  have hold : KeySorted older.toList := Std.ExtTreeMap.ordered_keys_toList
  have hnew : KeySorted newer.toList := Std.ExtTreeMap.ordered_keys_toList
  have hkeys : ∀ files : BTreeMap Str Str,
      (files.toList.map Prod.fst).Pairwise fun left right => compare left right = .lt :=
    fun files => List.pairwise_map.mpr Std.ExtTreeMap.ordered_keys_toList
  obtain ⟨hadded, hdeleted⟩ := diffLists_sublist older.toList newer.toList
  obtain ⟨hmemAdded, hmemDeleted⟩ := mem_diffLists older.toList newer.toList hold hnew
  refine ⟨?_, (hkeys older).sublist hdeleted, fun key flag => ?_, fun key => ?_⟩
  · exact List.pairwise_map.mp ((hkeys newer).sublist hadded)
  · simp only [hmemAdded, Std.ExtTreeMap.mem_toList_iff_getElem?_eq_some, ne_eq]
  · simp only [hmemDeleted, Std.ExtTreeMap.mem_toList_iff_getElem?_eq_some]
    rw [Option.ne_none_iff_exists', Option.eq_none_iff_forall_ne_some]

/-! ## The update loop of a targeted refresh -/

/-- The keys that a diff lists are below this one. -/
def MerkleDiff.Below (diff : MerkleDiff) (key : Str) : Prop :=
  (∀ entry ∈ diff.addedOrModified, compare entry.1 key = .lt) ∧
    ∀ other ∈ diff.deleted, compare other key = .lt

/-- The empty diff describes no change. -/
theorem MerkleDiff.describes_refl (files : BTreeMap Str Str) :
    MerkleDiff.Describes ⟨[], []⟩ files files :=
  ⟨.nil, .nil, by simp +contextual, by simp⟩

section

variable {original files : BTreeMap Str Str} {diff : MerkleDiff} {key : Str}
  {update : Option Str}

/-- An update changes its own key. -/
theorem applyUpdate_getElem? (files : BTreeMap Str Str) (diff : MerkleDiff) (key : Str)
    (update : Option Str) (other : Str) :
    (MerkleSnapshot.applyUpdate (files, diff) (key, update)).1[other]? =
      if key = other then update else files[other]? := by
  cases update with
  | some hash =>
    simp only [MerkleSnapshot.applyUpdate]
    split
    · simp only [Std.ExtTreeMap.getElem?_insert, Std.LawfulEqCmp.compare_eq_iff_eq]
    · grind
  | none =>
    simp only [MerkleSnapshot.applyUpdate]
    split
    · simp only [Std.ExtTreeMap.getElem?_erase, Std.LawfulEqCmp.compare_eq_iff_eq]
    · grind

variable (update) in
/-- An update above all keys that the diff lists extends it by its own change. -/
theorem applyUpdate_describes (hdiff : diff.Describes original files) (hbelow : diff.Below key)
    (hfresh : files[key]? = original[key]?) :
    (MerkleSnapshot.applyUpdate (files, diff) (key, update)).2.Describes original
      (MerkleSnapshot.applyUpdate (files, diff) (key, update)).1 := by
  have hne : ∀ other : Str, compare other key = .lt → other ≠ key := by
    rintro other h rfl
    simp [Std.ReflCmp.compare_self] at h
  have hget := applyUpdate_getElem? files diff key update
  cases update with
  | some hash =>
    simp only [MerkleSnapshot.applyUpdate] at hget ⊢
    split
    · rename_i hchanged
      rw [if_pos hchanged] at hget
      refine ⟨?_, hdiff.deleted_sorted, fun other flag => ?_, fun other => ?_⟩
      · exact List.pairwise_append.mpr ⟨hdiff.added_sorted, List.pairwise_singleton _ _,
          fun entry hentry last hlast => List.mem_singleton.mp hlast ▸ hbelow.1 entry hentry⟩
      · have hnew : ∀ flag, (key, flag) ∉ diff.addedOrModified :=
          fun flag hmem => hne key (hbelow.1 _ hmem) rfl
        rw [List.mem_append, List.mem_singleton, hget]
        by_cases hkey : key = other
        · subst hkey
          simp only [hnew, false_or, if_true, Prod.mk.injEq, true_and]
          grind [isIgnoredHash]
        · rw [if_neg hkey, hdiff.mem_added]
          grind
      · rw [hdiff.mem_deleted, hget]
        grind
    · exact hdiff
  | none =>
    simp only [MerkleSnapshot.applyUpdate] at hget ⊢
    split
    · rename_i hpresent
      rw [if_pos hpresent] at hget
      refine ⟨hdiff.added_sorted, ?_, fun other flag => ?_, fun other => ?_⟩
      · exact List.pairwise_append.mpr ⟨hdiff.deleted_sorted, List.pairwise_singleton _ _,
          fun entry hentry last hlast => List.mem_singleton.mp hlast ▸ hbelow.2 entry hentry⟩
      · rw [hdiff.mem_added, hget]
        grind
      · rw [List.mem_append, List.mem_singleton, hget]
        by_cases hkey : key = other
        · subst hkey
          have hmem : original[key]? ≠ none := by
            rw [← hfresh]
            simpa using hpresent
          simp [hmem]
        · rw [if_neg hkey, hdiff.mem_deleted]
          grind
    · exact hdiff

/-- An update lists its own key at most. -/
theorem applyUpdate_below {next : Str} (hbelow : diff.Below next) (hlt : compare key next = .lt) :
    (MerkleSnapshot.applyUpdate (files, diff) (key, update)).2.Below next := by
  cases update with
  | some hash =>
    simp only [MerkleSnapshot.applyUpdate]
    split
    · refine ⟨fun entry hentry => ?_, hbelow.2⟩
      rcases List.mem_append.mp hentry with hold | hnew
      · exact hbelow.1 entry hold
      · exact List.mem_singleton.mp hnew ▸ hlt
    · exact hbelow
  | none =>
    simp only [MerkleSnapshot.applyUpdate]
    split
    · refine ⟨hbelow.1, fun other hother => ?_⟩
      rcases List.mem_append.mp hother with hold | hnew
      · exact hbelow.2 other hold
      · exact List.mem_singleton.mp hnew ▸ hlt
    · exact hbelow

/-- The update loop leads to the files that the updates say, and its diff describes the
    change. -/
theorem foldl_applyUpdate (updates : List (Str × Option Str)) (hsorted : KeySorted updates)
    (hdiff : diff.Describes original files)
    (hupdates : ∀ entry ∈ updates, diff.Below entry.1 ∧ files[entry.1]? = original[entry.1]?) :
    (updates.foldl MerkleSnapshot.applyUpdate (files, diff)).2.Describes original
        (updates.foldl MerkleSnapshot.applyUpdate (files, diff)).1 ∧
      ∀ other, (updates.foldl MerkleSnapshot.applyUpdate (files, diff)).1[other]? =
        (updates.lookup other).getD files[other]? := by
  induction updates generalizing files diff with
  | nil => exact ⟨hdiff, fun other => rfl⟩
  | cons entry updates ih =>
    obtain ⟨key, update⟩ := entry
    obtain ⟨hbelow, hfresh⟩ := hupdates (key, update) (by simp)
    have hfirst := (List.pairwise_cons.mp hsorted).1
    rw [List.foldl_cons]
    have hstep := applyUpdate_getElem? files diff key update
    have hdescribes := applyUpdate_describes update hdiff hbelow hfresh
    have hrest : ∀ entry ∈ updates,
        (MerkleSnapshot.applyUpdate (files, diff) (key, update)).2.Below entry.1 ∧
          (MerkleSnapshot.applyUpdate (files, diff) (key, update)).1[entry.1]? =
            original[entry.1]? := by
      intro entry hentry
      obtain ⟨hentryBelow, hentryFresh⟩ := hupdates entry (List.mem_cons_of_mem _ hentry)
      refine ⟨applyUpdate_below hentryBelow (hfirst entry hentry), ?_⟩
      have hne : key ≠ entry.1 := by
        intro heq
        have := hfirst entry hentry
        simp [heq, Std.ReflCmp.compare_self] at this
      rw [hstep, if_neg hne, hentryFresh]
    obtain ⟨hresult, hget⟩ := ih hsorted.of_cons hdescribes hrest
    refine ⟨hresult, fun other => ?_⟩
    rw [hget, hstep, List.lookup_cons]
    by_cases hkey : key = other
    · subst hkey
      have hnone : updates.lookup key = none := by
        rw [List.lookup_eq_none_iff]
        intro entry hentry
        have := not_mem_tail hsorted entry.2
        grind
      simp [hnone]
    · rw [if_neg hkey, beq_eq_false_iff_ne.mpr (Ne.symm hkey)]

end

end Ivygrep.Native
