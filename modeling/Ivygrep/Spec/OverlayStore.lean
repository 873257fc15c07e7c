import Ivygrep.Spec.OverlayScan

/-!
# What a run writes to an overlay

The loops of a run, pointwise: which chunk rows and tombstones a path has afterwards,
from the lists that the run goes through.
-/

namespace Ivygrep.Native

variable {chunked : Str → List UInt8 → Bool} {base : BaseIndex}
  {read : Str → Option SourceFile} {key : Str}

/-! ## Loops -/

theorem compare_eq_iff {other : Str} : compare other key = .eq ↔ key = other := by
  rw [Std.LawfulEqCmp.compare_eq_iff_eq, eq_comm]

theorem mem_insert_iff {β : Type} {map : BTreeMap Str β} {other : Str} {value : β} :
    key ∈ map.insert other value ↔ key = other ∨ key ∈ map := by
  rw [Std.ExtTreeMap.mem_insert, compare_eq_iff]

theorem mem_erase_iff {β : Type} {map : BTreeMap Str β} {other : Str} :
    key ∈ map.erase other ↔ key ≠ other ∧ key ∈ map := by
  rw [Std.ExtTreeMap.mem_erase, ne_eq, compare_eq_iff]

theorem getElem?_erase_key {β : Type} {map : BTreeMap Str β} {other : Str} :
    (map.erase other)[key]? = if key = other then none else map[key]? := by
  simp only [Std.ExtTreeMap.getElem?_erase, compare_eq_iff]

variable (key) in
/-- The clear loop takes the rows and the tombstones of its paths away. -/
theorem clearPaths_spec (store : OverlayStore) (clear : List Str) :
    (clearPaths store clear).chunks[key]? = (if key ∈ clear then none else store.chunks[key]?) ∧
      (key ∈ (clearPaths store clear).tombstones ↔ key ∉ clear ∧ key ∈ store.tombstones) := by
  induction clear generalizing store with
  | nil => simp [clearPaths]
  | cons other clear ih =>
    unfold clearPaths
    obtain ⟨hchunks, htombstones⟩ := ih ⟨store.chunks.erase other, store.tombstones.erase other⟩
    rw [hchunks, htombstones, getElem?_erase_key, mem_erase_iff]
    by_cases hkey : key = other
    · simp [hkey]
    · simp [hkey]

variable (base key) in
/-- The delete loop takes the rows of its paths away, and hides those of the base. -/
theorem deletePaths_spec (store : OverlayStore) (deleted : List Str) :
    (deletePaths base store deleted).chunks[key]? =
        (if key ∈ deleted then none else store.chunks[key]?) ∧
      (key ∈ (deletePaths base store deleted).tombstones ↔
        if key ∈ deleted then pathExistsInBase base key = true else key ∈ store.tombstones) := by
  induction deleted generalizing store with
  | nil => simp [deletePaths]
  | cons other deleted ih =>
    unfold deletePaths
    obtain ⟨hchunks, htombstones⟩ := ih ⟨store.chunks.erase other,
      if pathExistsInBase base other then store.tombstones.insert other ()
      else store.tombstones.erase other⟩
    rw [hchunks, htombstones, getElem?_erase_key]
    by_cases hkey : key = other
    · subst hkey
      cases hbase : pathExistsInBase base key with
      | true => simp
      | false => simp
    · by_cases hmem : key ∈ deleted
      · simp [hmem]
      · cases hbase : pathExistsInBase base other with
        | true => simp [hmem, hkey, Ne.symm hkey]
        | false => simp [hmem, hkey, Ne.symm hkey]

variable (base key) in
/-- The hiding loop adds tombstones for its paths that the base has. -/
theorem hidePaths_spec (store : OverlayStore) (added : List (Str × Bool)) :
    (hidePaths base store added).chunks = store.chunks ∧
      (key ∈ (hidePaths base store added).tombstones ↔
        (key ∈ added.map Prod.fst ∧ pathExistsInBase base key = true) ∨
          key ∈ store.tombstones) := by
  induction added generalizing store with
  | nil => simp [hidePaths]
  | cons entry added ih =>
    unfold hidePaths
    cases hbase : pathExistsInBase base entry.1 with
    | true =>
      obtain ⟨hchunks, htombstones⟩ :=
        ih { store with tombstones := store.tombstones.insert entry.1 () }
      rw [if_pos rfl, hchunks, htombstones, mem_insert_iff, List.map_cons, List.mem_cons]
      refine ⟨rfl, ?_⟩
      by_cases hkey : key = entry.1
      · simp [hkey, hbase]
      · simp [hkey]
    | false =>
      obtain ⟨hchunks, htombstones⟩ := ih store
      rw [if_neg Bool.false_ne_true, hchunks, htombstones, List.map_cons, List.mem_cons]
      refine ⟨rfl, ?_⟩
      by_cases hkey : key = entry.1
      · simp [hkey, hbase]
      · simp [hkey]

/-- The rows that a run makes of a changed path. -/
def readRow (chunked : Str → List UInt8 → Bool) (read : Str → Option SourceFile) (key : Str)
    (isIgnored : Bool) : Option Row :=
  (read key).bind fun file => indexFile chunked key file.content isIgnored

theorem getElem?_replaceRow (chunks : BTreeMap Str Row) (other : Str) (row : Option Row) :
    (replaceRow chunks other row)[key]? = if key = other then row else chunks[key]? := by
  unfold replaceRow
  cases row with
  | none => simp only [getElem?_erase_key]
  | some row =>
    simp only [Std.ExtTreeMap.getElem?_insert, compare_eq_iff]

variable (chunked read key) in
/-- The ingest loop replaces the rows of its paths, and reports those that it cannot
    read. All entries of one path have one flag. -/
theorem ingestFiles_spec (chunks : BTreeMap Str Row) (vanished : List Str)
    (added : List (Str × Bool)) (isIgnored : Bool)
    (hflag : ∀ entry ∈ added, entry.1 = key → entry.2 = isIgnored) :
    (ingestFiles chunked read chunks vanished added).1[key]? =
        (if key ∈ added.map Prod.fst then readRow chunked read key isIgnored
        else chunks[key]?) ∧
      (key ∈ (ingestFiles chunked read chunks vanished added).2 ↔
        key ∈ vanished ∨ (key ∈ added.map Prod.fst ∧ read key = none)) := by
  induction added generalizing chunks vanished with
  | nil => simp [ingestFiles]
  | cons entry added ih =>
    have hrest : ∀ other ∈ added, other.1 = key → other.2 = isIgnored := by
      intro other hother
      exact hflag other (List.mem_cons_of_mem _ hother)
    obtain ⟨other, flag⟩ := entry
    unfold ingestFiles
    simp only [List.map_cons, List.mem_cons]
    cases hread : read other with
    | none =>
      obtain ⟨hchunks, hvanished⟩ := ih (chunks.erase other) (vanished ++ [other]) hrest
      simp only [hchunks, hvanished, getElem?_erase_key, List.mem_append, List.mem_singleton]
      by_cases hkey : key = other
      · subst hkey
        simp [hread, readRow]
      · simp [hkey]
    | some file =>
      obtain ⟨hchunks, hvanished⟩ := ih
        (replaceRow chunks other (indexFile chunked other file.content flag)) vanished hrest
      simp only [hchunks, hvanished, getElem?_replaceRow]
      by_cases hkey : key = other
      · subst hkey
        have hsame : flag = isIgnored := hflag (key, flag) (by simp) rfl
        simp [hread, readRow, hsame]
      · simp [hkey]

end Ivygrep.Native
