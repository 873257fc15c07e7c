import Ivygrep.ForStd.FileTree

/-!
# Walking a file tree in order

A walk that sorts the entries of every directory by name and goes into a directory as soon as it
meets it. Its paths come in the order that compares them name by name.
-/

namespace ForStd.FileTree

variable {α β : Type} [LinearOrder α]

mutual

/-- Every entry with its path and, for what is no directory, its content. -/
def walk : FileTree α β → List (List α × Option β)
  | file content => [([], some content)]
  | dir entries =>
    ([], none) :: ((walkEntries entries).insertionSort fun left right => left.1 ≤ right.1).flatMap
      fun entry => entry.2.map fun below => (entry.1 :: below.1, below.2)

/-- The names of a directory, with the walks below them. -/
def walkEntries : List (α × FileTree α β) → List (α × List (List α × Option β))
  | [] => []
  | (name, child) :: rest => (name, walk child) :: walkEntries rest

end

mutual

/-- No directory has two entries of one name. -/
def Distinct : FileTree α β → Prop
  | file _ => True
  | dir entries => (entries.map Prod.fst).Nodup ∧ DistinctEntries entries

def DistinctEntries : List (α × FileTree α β) → Prop
  | [] => True
  | (_, child) :: rest => Distinct child ∧ DistinctEntries rest

end

theorem map_fst_walkEntries (entries : List (α × FileTree α β)) :
    (walkEntries entries).map Prod.fst = entries.map Prod.fst := by
  induction entries with
  | nil => rw [walkEntries]; rfl
  | cons entry rest ih =>
    rw [walkEntries, List.map_cons, List.map_cons, ih]

/-- What is below distinct names stays apart, and in the order of the names. -/
theorem pairwise_flatMap_names {entries : List (α × List (List α × Option β))}
    (hnames : (entries.map Prod.fst).Nodup)
    (hbelow : ∀ entry ∈ entries, entry.2.Pairwise fun left right => left.1 < right.1) :
    ((entries.insertionSort fun left right => left.1 ≤ right.1).flatMap fun entry =>
      entry.2.map fun below => (entry.1 :: below.1, below.2)).Pairwise
        fun left right => left.1 < right.1 := by
  have hperm := List.perm_insertionSort (fun left right : α × List (List α × Option β) =>
    left.1 ≤ right.1) entries
  have hsorted := List.pairwise_insertionSort (fun left right : α × List (List α × Option β) =>
    left.1 ≤ right.1) entries
  have hdistinct := (hperm.map Prod.fst).nodup_iff.mpr hnames
  rw [List.pairwise_flatMap]
  constructor
  · intro entry hentry
    rw [List.pairwise_map]
    refine (hbelow entry (hperm.mem_iff.mp hentry)).imp fun hlt => ?_
    exact List.Lex.cons hlt
  · have hstrict := hsorted.and (List.pairwise_map.mp hdistinct)
    refine hstrict.imp fun h left hleft right hright => ?_
    obtain ⟨below, -, rfl⟩ := List.mem_map.mp hleft
    obtain ⟨other, -, rfl⟩ := List.mem_map.mp hright
    exact List.Lex.rel (lt_of_le_of_ne h.1 h.2)

mutual

/-- A walk comes in the order of the paths. -/
theorem walk_sorted : ∀ (tree : FileTree α β), tree.Distinct →
    tree.walk.Pairwise fun left right => left.1 < right.1
  | file _, _ => by
    rw [walk]
    exact List.pairwise_singleton _ _
  | dir entries, h => by
    rw [Distinct] at h
    rw [walk, List.pairwise_cons]
    constructor
    · intro entry hentry
      obtain ⟨child, -, hchild⟩ := List.mem_flatMap.mp hentry
      obtain ⟨below, -, rfl⟩ := List.mem_map.mp hchild
      exact List.Lex.nil
    · apply pairwise_flatMap_names
      · rw [map_fst_walkEntries]
        exact h.1
      · exact walkEntries_sorted entries h.2

theorem walkEntries_sorted : ∀ (entries : List (α × FileTree α β)), DistinctEntries entries →
    ∀ entry ∈ walkEntries entries, entry.2.Pairwise fun left right => left.1 < right.1
  | [], _, entry, hentry => by
    rw [walkEntries] at hentry
    exact absurd hentry List.not_mem_nil
  | (name, child) :: rest, h, entry, hentry => by
    rw [DistinctEntries] at h
    rw [walkEntries] at hentry
    rcases List.mem_cons.mp hentry with rfl | hrest
    · exact walk_sorted child h.1
    · exact walkEntries_sorted rest h.2 entry hrest

end

end ForStd.FileTree
