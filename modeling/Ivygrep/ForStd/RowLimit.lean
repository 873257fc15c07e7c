import Ivygrep.ForStd.Ranking

/-!
# Ranked rows from limited sources

Sources that return their first rows only, a stable sort of what they return, and a pass that drops
a row whose key the row before it has. This compares the result with the first row of each key in
the ranking of all rows, and says exactly when the two have the same first entries.
-/

namespace ForStd

variable {α K : Type*} [DecidableEq K] (key : α → K)

/-- `Vec::dedup_by`: drops the entries with the key of the entry kept last. -/
def dedupAdjacent (last : Option K) : List α → List α
  | [] => []
  | a :: l =>
    if last = some (key a) then dedupAdjacent last l else a :: dedupAdjacent (some (key a)) l

/-- The rows that were returned. -/
def returned (rows : List (α × Bool)) : List α := (rows.filter Prod.snd).map Prod.fst

/-- Whether the first `n` rows of new keys come out of the returned rows. The rows are walked in
    their order, with the keys seen so far and the key of the row listed last. A row with a new key
    is returned, or the next one that is returned is equal to it. A returned row with a key seen
    before follows on a row of that key. -/
def Undisturbed (n : Nat) (seen : List K) (last : Option K) : List (α × Bool) → Prop
  | [] => True
  | (a, isReturned) :: rows =>
    if n = 0 then True
    else if key a ∈ seen then
      (isReturned = true → last = some (key a)) ∧ Undisturbed n seen last rows
    else
      (isReturned = true ∨ (returned rows).head? = some a) ∧
        Undisturbed (n - 1) (key a :: seen) (some (key a)) rows

/-- The rows of a source, of which it returns the first `n`. -/
def numbered (n : Nat) (rows : List α) : List (α × Bool) :=
  rows.zipIdx.map fun (a, i) => (a, decide (i < n))

variable {key}

theorem dedupAdjacent_sublist (last : Option K) (l : List α) :
    (dedupAdjacent key last l).Sublist l := by
  induction l generalizing last with
  | nil => exact .slnil
  | cons a l ih =>
    unfold dedupAdjacent
    split
    · exact (ih last).cons a
    · exact (ih _).cons_cons a

/-- Every key keeps an entry, but for the key of the entry kept before. -/
theorem exists_mem_dedupAdjacent {last : Option K} {l : List α} {a : α} (ha : a ∈ l)
    (hlast : last ≠ some (key a)) : ∃ b ∈ dedupAdjacent key last l, key b = key a := by
  induction l generalizing last with
  | nil => simp at ha
  | cons c l ih =>
    unfold dedupAdjacent
    rcases List.mem_cons.mp ha with rfl | hrest
    · rw [if_neg hlast]
      exact ⟨a, List.mem_cons_self, rfl⟩
    · split
      · exact ih hrest hlast
      · by_cases hkey : key c = key a
        · exact ⟨c, List.mem_cons_self, hkey⟩
        · have hother : some (key c) ≠ some (key a) := by simpa using hkey
          obtain ⟨b, hb, hsame⟩ := ih hrest hother
          exact ⟨b, List.mem_cons_of_mem c hb, hsame⟩

omit [DecidableEq K] in
theorem mem_of_mem_returned {a : α} {rows : List (α × Bool)} (h : a ∈ returned rows) :
    ∃ row ∈ rows, row.1 = a := by
  obtain ⟨row, hrow, rfl⟩ := List.mem_map.mp h
  exact ⟨row, List.mem_of_mem_filter hrow, rfl⟩

omit [DecidableEq K] in
theorem returned_pairwise {r : α → α → Prop} {rows : List (α × Bool)}
    (h : rows.Pairwise fun a b => r a.1 b.1) : (returned rows).Pairwise r :=
  List.pairwise_map.mpr (h.sublist List.filter_sublist)

theorem key_not_mem_of_mem_retainFirst {a : α} {seen : List K} {l : List α}
    (h : a ∈ retainFirst key seen l) : key a ∉ seen := by
  rw [retainFirst_eq] at h
  simpa using List.of_mem_filter h

/-- The first entry that comes out of sorted rows is the next one returned, unless what is wanted
    is a row that ranks before all of them. -/
theorem returned_head_of_dedup {r : α → α → Prop} (hkey : ∀ a b, r a b → r b a → key a = key b)
    {a : α} {rows : List (α × Bool)} {last : Option K} (hfirst : ∀ row ∈ rows, r a row.1)
    (hsorted : rows.Pairwise fun a b => r a.1 b.1) (hlast : last ≠ some (key a))
    (h : (dedupAdjacent key last (returned rows)).head? = some a) :
    (returned rows).head? = some a := by
  have hpairwise := returned_pairwise hsorted
  cases hreturned : returned rows with
  | nil => simp [hreturned, dedupAdjacent] at h
  | cons b rest =>
    rw [hreturned] at h hpairwise
    -- A row between two equal ones ties with them and has their key.
    have hb : key a = key b := by
      obtain ⟨row, hrow, rfl⟩ := mem_of_mem_returned (hreturned ▸ List.mem_cons_self)
      have hmem := (dedupAdjacent_sublist last _).subset (List.mem_of_mem_head? h)
      rcases List.mem_cons.mp hmem with rfl | hrest
      · rfl
      · exact hkey _ _ (hfirst row hrow) ((List.pairwise_cons.mp hpairwise).1 a hrest)
    rw [dedupAdjacent, if_neg (hb ▸ hlast)] at h
    exact h

theorem undisturbed_zero (seen : List K) (last : Option K) (rows : List (α × Bool)) :
    Undisturbed key 0 seen last rows := by
  cases rows with
  | nil => trivial
  | cons row rows => rw [Undisturbed, if_pos rfl]; trivial

theorem take_dedupAdjacent_eq_iff {r : α → α → Prop}
    (hkey : ∀ a b, r a b → r b a → key a = key b) {rows : List (α × Bool)}
    (hsorted : rows.Pairwise fun a b => r a.1 b.1) {n : Nat} {seen : List K} {last : Option K}
    (hlast : ∀ k, last = some k → k ∈ seen) :
    (dedupAdjacent key last (returned rows)).take n =
        (retainFirst key seen (rows.map Prod.fst)).take n ↔
      Undisturbed key n seen last rows := by
  induction rows generalizing n seen last with
  | nil => simp [returned, dedupAdjacent, retainFirst, Undisturbed]
  | cons row rows ih =>
    obtain ⟨a, isReturned⟩ := row
    rw [List.pairwise_cons] at hsorted
    have hkeep : ∀ isReturned : Bool, returned ((a, isReturned) :: rows) =
        if isReturned then a :: returned rows else returned rows := by
      intro isReturned
      cases isReturned <;> rfl
    rw [hkeep, List.map_cons, retainFirst, Undisturbed]
    cases n with
    | zero => simp
    | succ n =>
      rw [if_neg (Nat.succ_ne_zero n), Nat.add_sub_cancel]
      by_cases hseen : key a ∈ seen
      · rw [if_pos hseen, if_pos hseen, ← ih hsorted.2 hlast]
        cases isReturned with
        | false => simp
        | true =>
          by_cases hnext : last = some (key a)
          · simp [dedupAdjacent, hnext]
          · -- The row comes out again, where every row has a new key.
            refine iff_of_false (fun heq => ?_) (by simp [hnext])
            rw [if_pos rfl, dedupAdjacent, if_neg hnext, List.take_succ_cons] at heq
            have hmem : a ∈ retainFirst key seen (rows.map Prod.fst) :=
              List.mem_of_mem_take (heq ▸ List.mem_cons_self)
            exact key_not_mem_of_mem_retainFirst hmem hseen
      · have hnext : last ≠ some (key a) := fun heq => hseen (hlast _ heq)
        have hlisted : ∀ k, some (key a) = some k → k ∈ key a :: seen := by simp +contextual
        have hrest := ih hsorted.2 hlisted (n := n)
        rw [if_neg hseen, if_neg hseen, List.take_succ_cons, ← hrest]
        cases isReturned with
        | true => simp [dedupAdjacent, hnext]
        | false =>
          simp only [Bool.false_eq_true, if_false, false_or]
          by_cases hhead : (returned rows).head? = some a
          · obtain ⟨rest, heq⟩ := List.head?_eq_some_iff.mp hhead
            simp [heq, dedupAdjacent, hnext]
          · refine iff_of_false (fun heq => hhead ?_) (fun h => hhead h.1)
            refine returned_head_of_dedup hkey hsorted.1 hsorted.2 hnext ?_
            have hfirst := congrArg List.head? heq
            rwa [List.head?_take, if_neg (Nat.succ_ne_zero n), List.head?_cons] at hfirst

/-! ## Limited sources -/

omit [DecidableEq K] in
theorem map_numbered (n : Nat) (rows : List α) : (numbered n rows).map Prod.fst = rows := by
  simp [numbered, List.map_map, Function.comp_def]

omit [DecidableEq K] in
theorem returned_numbered (n : Nat) (rows : List α) : returned (numbered n rows) = rows.take n := by
  have hfrom : ∀ start, ((rows.zipIdx start).map fun (a, i) => (a, decide (i < n))).filter Prod.snd =
      (rows.take (n - start)).map fun a => (a, true) := by
    induction rows with
    | nil => simp
    | cons a rows ih =>
      intro start
      rw [List.zipIdx_cons, List.map_cons, List.filter_cons, ih]
      by_cases hlt : start < n
      · rw [if_pos (by simpa using hlt), show n - start = (n - (start + 1)) + 1 by omega]
        simp [hlt]
      · rw [if_neg (by simpa using hlt), show n - (start + 1) = 0 by omega,
          show n - start = 0 by omega]
        simp
  rw [returned, numbered, hfrom 0]
  simp [List.map_map, Function.comp_def]

variable (r : α → α → Prop) [DecidableRel r] [IsTrans α r] [Std.Total r]

variable (key) in
/-- The rows of two sources in their ranking, of which each returns the first `n`. -/
def rankedRows (n : Nat) (left right : List α) : List (α × Bool) :=
  (numbered n left ++ numbered n right).insertionSort fun a b => r a.1 b.1

omit [IsTrans α r] [Std.Total r] in
theorem map_rankedRows (n : Nat) (left right : List α) :
    (rankedRows r n left right).map Prod.fst = (left ++ right).insertionSort r := by
  rw [rankedRows, List.map_insertionSort _ r Prod.fst _ fun _ _ _ _ => Iff.rfl, List.map_append,
    map_numbered, map_numbered]

/-- What the sources return, sorted and without the repeats that stand together, has the same first
    entries as the ranking of all rows exactly when no row is disturbed. -/
theorem take_dedup_sort_eq_iff (hkey : ∀ a b, r a b → r b a → key a = key b) (n : Nat)
    (left right : List α) :
    (dedupAdjacent key none ((left.take n ++ right.take n).insertionSort r)).take n =
        (ranking r key (left ++ right)).take n ↔
      Undisturbed key n [] none (rankedRows r n left right) := by
  have hreturned : returned (rankedRows r n left right) =
      (left.take n ++ right.take n).insertionSort r := by
    have htrans : IsTrans (α × Bool) fun a b => r a.1 b.1 := ⟨fun _ _ _ => trans_of r⟩
    have htotal : Std.Total fun a b : α × Bool => r a.1 b.1 := ⟨fun a b => total_of r a.1 b.1⟩
    rw [returned, rankedRows, ← filter_insertionSort,
      List.map_insertionSort _ r Prod.fst _ fun _ _ _ _ => Iff.rfl, List.filter_append,
      List.map_append]
    congr 2
    · exact returned_numbered n left
    · exact returned_numbered n right
  have hsorted : (rankedRows r n left right).Pairwise fun a b => r a.1 b.1 := by
    rw [← List.pairwise_map, map_rankedRows]
    exact List.pairwise_insertionSort r _
  rw [← hreturned, ranking, ← retainFirst_nil, ← map_rankedRows r n]
  exact take_dedupAdjacent_eq_iff hkey hsorted (by simp)

end ForStd
