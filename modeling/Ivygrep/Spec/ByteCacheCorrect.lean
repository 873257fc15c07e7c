import Ivygrep.Native.ByteCache

/-!
# Exact accounting of the byte-bounded caches

The byte counter of a cache is the sum of the costs of its entries. So the arithmetic stays
in range, and the eviction loops end: an empty map costs nothing. What leaves a cache for the
sake of another entry is a suffix of the entries in the order of their use.
-/

namespace Ivygrep.Native

open ForStd

theorem checkedSub_add {left right : Nat} : checkedSub (left + right) right = some left := by
  unfold checkedSub
  rw [if_pos (Nat.le_add_left right left), Nat.add_sub_cancel]

theorem checkedAdd_eq {left right : Nat} (h : left + right ≤ usizeMax) :
    checkedAdd left right = some (left + right) :=
  if_pos h

/-! ## Counted maps

A counter that is the sum of the costs stays so when it follows the operations of the map. -/

section Counted

variable {K V : Type} [DecidableEq K] {cache : LruCache K V} {cost : K → V → Nat} {bytes : Nat}

/-- A key that is not there is not removed; one that is there takes its cost away. -/
theorem pop_counted (hbytes : bytes = cache.total cost) (key : K) :
    (cache.pop key = ((cache.pop key).1, none) ∧ eraseKey key cache.entries = cache.entries) ∨
    ∃ removed, cache.pop key = ((cache.pop key).1, some removed) ∧
      checkedSub bytes (cost key removed) = some ((cache.pop key).1.total cost) ∧
      (cache.pop key).1.total cost ≤ bytes := by
  have htotal := cache.total_pop cost key
  cases hpeek : cache.peek key with
  | none =>
    left
    exact ⟨Prod.ext rfl hpeek, eraseKey_of_not_mem (not_mem_of_lookup hpeek)⟩
  | some removed =>
    right
    rw [hpeek, Option.map_some, Option.getD_some] at htotal
    refine ⟨removed, Prod.ext rfl hpeek, ?_, by omega⟩
    rw [hbytes, htotal, checkedSub_add]

/-- With a positive counter there is a least recently used entry. -/
theorem popLru_counted (hbytes : bytes = cache.total cost) (hpositive : 0 < bytes) :
    ∃ removed, cache.popLru = (cache.popLru.1, some removed) ∧
      checkedSub bytes (cost removed.1 removed.2) = some (cache.popLru.1.total cost) ∧
      cache.popLru.1.total cost ≤ bytes := by
  have htotal := cache.total_popLru cost
  cases hlast : cache.entries.getLast? with
  | none =>
    rw [List.getLast?_eq_none_iff] at hlast
    simp [hbytes, LruCache.total, hlast] at hpositive
  | some removed =>
    rw [hlast, Option.map_some, Option.getD_some] at htotal
    refine ⟨removed, Prod.ext rfl hlast, ?_, by omega⟩
    rw [hbytes, htotal, checkedSub_add]

/-- A new key adds its cost; in a full map the least recently used entry takes its own away. -/
theorem push_counted (hbytes : bytes = cache.total cost) {key : K}
    (habsent : cache.peek key = none) (value : V) :
    (cache.push key value).1.cap = cache.cap ∧ ∃ kept,
      (cache.push key value).1.entries = (key, value) :: cache.entries.take kept ∧
      ((cache.push key value = ((cache.push key value).1, none) ∧
          (cache.push key value).1.total cost = bytes + cost key value) ∨
        ∃ removed left, cache.push key value = ((cache.push key value).1, some removed) ∧
          bytes = left + cost removed.1 removed.2 ∧
          (cache.push key value).1.total cost = left + cost key value) := by
  obtain ⟨hcap, hpush⟩ := cache.push_of_not_mem habsent value
  refine ⟨hcap, ?_⟩
  rcases hpush with ⟨-, hentries, hremoved⟩ | ⟨hfull, hentries, hremoved⟩
  · refine ⟨cache.entries.length, by simpa using hentries, .inl ⟨Prod.ext rfl hremoved, ?_⟩⟩
    rw [LruCache.total, hentries, hbytes, Nat.add_comm]
    rfl
  · -- The map is full, so it has a least recently used entry.
    have hne : cache.entries ≠ [] := by
      intro hnil
      have hpos := cache.cap_pos
      rw [hnil] at hfull
      exact hfull hpos
    have hlast := List.getLast?_eq_some_getLast hne
    rw [hlast] at hremoved
    refine ⟨cache.entries.length - 1, by rw [hentries, List.dropLast_eq_take],
      .inr ⟨_, cache.popLru.1.total cost, Prod.ext rfl hremoved, ?_, ?_⟩⟩
    · rw [hbytes, cache.total_popLru cost, hlast]
      rfl
    · rw [LruCache.total, hentries, Nat.add_comm]
      rfl

end Counted

namespace ByteCache

variable {K V : Type} [DecidableEq K] {cache : ByteCache K V}

/-- The cost of an entry. -/
def cost (_ : K) (value : V × Nat) : Nat := value.2

/-- The counter is exact, and within the budget and the address space. -/
structure Exact (cache : ByteCache K V) : Prop where
  bytes_eq : cache.bytes = cache.entries.total cost
  bytes_le : cache.bytes ≤ cache.maxBytes
  maxBytes_le : cache.maxBytes ≤ usizeMax

/-- The limits of a cache never change. -/
def SameLimits (before after : ByteCache K V) : Prop :=
  after.maxBytes = before.maxBytes ∧ after.entries.cap = before.entries.cap

theorem new_exact {maxEntries maxBytes : Nat} (hentries : 0 < maxEntries)
    (hmax : maxBytes ≤ usizeMax) : (new maxEntries hentries maxBytes : ByteCache K V).Exact :=
  ⟨rfl, Nat.zero_le _, hmax⟩

theorem get_exact (hexact : cache.Exact) (key : K) : (cache.get key).1.Exact := by
  refine ⟨?_, hexact.bytes_le, hexact.maxBytes_le⟩
  show cache.bytes = (cache.entries.get key).1.total cost
  rw [LruCache.total_get, hexact.bytes_eq]

/-- `remove` takes the key away and nothing else. -/
theorem remove_spec (hexact : cache.Exact) (key : K) :
    ∃ after, cache.remove key = some after ∧ after.Exact ∧ SameLimits cache after ∧
      after.entries.entries = eraseKey key cache.entries.entries := by
  unfold remove
  rcases pop_counted hexact.bytes_eq key with ⟨hpop, hsame⟩ | ⟨removed, hpop, hsub, hle⟩
  · rw [hpop]
    exact ⟨cache, rfl, hexact, ⟨rfl, rfl⟩, hsame.symm⟩
  · have hcost : checkedSub cache.bytes removed.2 =
        some ((cache.entries.pop key).1.total cost) := hsub
    rw [hpop]
    simp only [hcost, Option.map_some]
    exact ⟨_, rfl, ⟨rfl, hle.trans hexact.bytes_le, hexact.maxBytes_le⟩, ⟨rfl, rfl⟩, rfl⟩

/-- The eviction loop ends with room for the new entry, and only the least recently used
    entries are gone. -/
theorem evict_spec {bytes fuel : Nat} (hexact : cache.Exact)
    (hfits : bytes ≤ cache.maxBytes) (hfuel : cache.entries.entries.length ≤ fuel) :
    ∃ after kept, evict bytes fuel cache = some after ∧ after.Exact ∧ SameLimits cache after ∧
      after.bytes + bytes ≤ after.maxBytes ∧
      after.entries.entries = cache.entries.entries.take kept := by
  have hlimit : checkedSub cache.maxBytes bytes = some (cache.maxBytes - bytes) := if_pos hfits
  induction fuel generalizing cache with
  | zero =>
    have hnil : cache.entries.entries = [] := List.length_eq_zero_iff.mp (Nat.le_zero.mp hfuel)
    have hzero : cache.bytes = 0 := by simp [hexact.bytes_eq, LruCache.total, hnil]
    refine ⟨cache, 0, ?_, hexact, ⟨rfl, rfl⟩, by omega, by simp [hnil]⟩
    rw [evict, hlimit, Option.bind_some, if_pos (by omega)]
  | succ fuel ih =>
    by_cases hroom : cache.bytes ≤ cache.maxBytes - bytes
    · refine ⟨cache, cache.entries.entries.length, ?_, hexact, ⟨rfl, rfl⟩, by omega, by simp⟩
      rw [evict, hlimit, Option.bind_some, if_pos hroom]
    · -- The counter is positive, so there is an entry to evict.
      obtain ⟨removed, hpop, hsub, hle⟩ := popLru_counted hexact.bytes_eq (by omega)
      have hcost : checkedSub cache.bytes removed.2.2 =
          some (cache.entries.popLru.1.total cost) := hsub
      let smaller : ByteCache K V :=
        { cache with entries := cache.entries.popLru.1, bytes := cache.entries.popLru.1.total cost }
      have hsmaller : smaller.Exact := ⟨rfl, hle.trans hexact.bytes_le, hexact.maxBytes_le⟩
      have hlength : smaller.entries.entries.length ≤ fuel := by
        show cache.entries.entries.dropLast.length ≤ fuel
        rw [List.length_dropLast]
        omega
      obtain ⟨after, kept, hevict, hafter, hsame, hspace, hentries⟩ :=
        ih hsmaller hfits hlength hlimit
      refine ⟨after, min kept (cache.entries.entries.length - 1), ?_, hafter, hsame, hspace, ?_⟩
      · rw [evict, hlimit, Option.bind_some, if_neg hroom, hpop]
        simp only [hcost, Option.bind_some]
        exact hevict
      · rw [hentries]
        show cache.entries.entries.dropLast.take kept = _
        rw [List.dropLast_eq_take, List.take_take]

/-- With room for it, the new entry goes in front. -/
theorem add_spec {key : K} (value : V) {bytes : Nat} (hexact : cache.Exact)
    (hkey : cache.entries.peek key = none) (hroom : cache.bytes + bytes ≤ cache.maxBytes) :
    ∃ after kept, cache.add key value bytes = some after ∧ after.Exact ∧ SameLimits cache after ∧
      after.entries.entries = (key, (value, bytes)) :: cache.entries.entries.take kept := by
  have hmax := hexact.maxBytes_le
  obtain ⟨hcap, kept, hentries, hpush⟩ := push_counted hexact.bytes_eq hkey (value, bytes)
  unfold add
  rcases hpush with ⟨hpair, htotal⟩ | ⟨removed, left, hpair, hbytes, htotal⟩
  · rw [hpair]
    simp only [checkedAdd_eq (hroom.trans hmax), Option.map_some]
    exact ⟨_, kept, rfl, ⟨htotal.symm, hroom, hmax⟩, ⟨rfl, hcap⟩, hentries⟩
  · have hcost : cache.bytes = left + removed.2.2 := hbytes
    have hspace : left + bytes ≤ cache.maxBytes := by omega
    rw [hpair]
    simp only [hcost, checkedSub_add, Option.bind_some, checkedAdd_eq (hspace.trans hmax),
      Option.map_some]
    exact ⟨_, kept, rfl, ⟨htotal.symm, hspace, hmax⟩, ⟨rfl, hcap⟩, hentries⟩

/-- What `insert` leaves: the new entry, if it fits, and after it the other entries but for a
    suffix. -/
theorem insert_spec (hexact : cache.Exact) (key : K) (value : V) (bytes : Nat) :
    ∃ after, cache.insert key value bytes = some after ∧ after.Exact ∧ SameLimits cache after ∧
      (bytes ≤ cache.maxBytes → ∃ kept, after.entries.entries =
        (key, (value, bytes)) :: (eraseKey key cache.entries.entries).take kept) ∧
      (cache.maxBytes < bytes →
        after.entries.entries = eraseKey key cache.entries.entries) := by
  obtain ⟨without, hremove, hwithout, hsame, hentries⟩ := remove_spec hexact key
  unfold insert
  rw [hremove, Option.bind_some]
  by_cases hfits : bytes ≤ cache.maxBytes
  · have hfitsWithout : bytes ≤ without.maxBytes := hsame.1 ▸ hfits
    obtain ⟨evicted, kept, hevict, hevicted, hsameEvicted, hroom, hkept⟩ :=
      evict_spec hwithout hfitsWithout le_rfl
    have habsent : evicted.entries.peek key = none := by
      refine lookup_of_not_mem fun hmem => not_mem_eraseKey key cache.entries.entries ?_
      rw [hkept, hentries] at hmem
      exact ((List.take_sublist kept _).map Prod.fst).subset hmem
    obtain ⟨after, more, hadd, hafter, hsameAfter, hmore⟩ := add_spec value hevicted habsent hroom
    refine ⟨after, ?_, hafter, ⟨?_, ?_⟩, fun _ => ⟨min more kept, ?_⟩, fun h => by omega⟩
    · rw [show without.fits bytes = true from decide_eq_true hfitsWithout]
      simp only [Bool.not_true, Bool.false_eq_true, if_false, hevict, Option.bind_some, hadd]
    · rw [hsameAfter.1, hsameEvicted.1, hsame.1]
    · rw [hsameAfter.2, hsameEvicted.2, hsame.2]
    · rw [hmore, hkept, hentries, List.take_take]
  · have hnot : without.fits bytes = false := by
      show decide (bytes ≤ without.maxBytes) = false
      rw [hsame.1]
      exact decide_eq_false hfits
    refine ⟨without, ?_, hwithout, hsame, fun h => absurd h hfits, fun _ => hentries⟩
    rw [hnot]
    rfl

/-- Every call succeeds and keeps the counter exact. -/
theorem call_spec (hexact : cache.Exact) (call : ByteCacheCall K V) :
    ∃ after, cache.call call = some after ∧ after.Exact ∧ SameLimits cache after := by
  cases call with
  | get key => exact ⟨_, rfl, get_exact hexact key, rfl, by simp [get]⟩
  | insert key value bytes =>
    obtain ⟨after, hinsert, hafter, hsame, -⟩ := insert_spec hexact key value bytes
    exact ⟨after, hinsert, hafter, hsame⟩
  | remove key =>
    obtain ⟨after, hremove, hafter, hsame, -⟩ := remove_spec hexact key
    exact ⟨after, hremove, hafter, hsame⟩

/-- Every sequence of calls does. -/
theorem calls_spec (hexact : cache.Exact) (calls : List (ByteCacheCall K V)) :
    ∃ after, calls.foldlM ByteCache.call cache = some after ∧ after.Exact ∧
      SameLimits cache after := by
  induction calls generalizing cache with
  | nil => exact ⟨cache, rfl, hexact, rfl, rfl⟩
  | cons call calls ih =>
    obtain ⟨next, hcall, hnext, hsame⟩ := call_spec hexact call
    obtain ⟨after, hcalls, hafter, hsameAfter⟩ := ih hnext
    refine ⟨after, ?_, hafter, hsameAfter.1.trans hsame.1, hsameAfter.2.trans hsame.2⟩
    rw [List.foldlM_cons, hcall]
    exact hcalls

end ByteCache

namespace FileContentCache

variable {Stamp : Type} {sizes : CachedSizes} {cache : FileContentCache Stamp}

/-- The cost of an entry. -/
def cost (sizes : CachedSizes) (path : Str) (content : CachedFileContent Stamp) : Nat :=
  content.bytes sizes path

/-- The counter is exact and within the budget, and twice the budget is in the address space:
    the cost of a new entry is added before others leave. -/
structure Exact (sizes : CachedSizes) (cache : FileContentCache Stamp) : Prop where
  bytes_eq : cache.bytes = cache.entries.total (cost sizes)
  bytes_le : cache.bytes ≤ cache.maxBytes
  maxBytes_le : 2 * cache.maxBytes ≤ usizeMax

/-- The limits of a cache never change. -/
def SameLimits (before after : FileContentCache Stamp) : Prop :=
  after.maxBytes = before.maxBytes ∧ after.entries.cap = before.entries.cap

theorem shared_exact : (shared : FileContentCache Stamp).Exact sizes := by
  refine ⟨rfl, Nat.zero_le _, ?_⟩
  show 2 * maxCachedBytes ≤ usizeMax
  decide

/-- `remove` takes the path away and nothing else. -/
theorem remove_spec (hexact : cache.Exact sizes) (path : Str) :
    ∃ after, cache.remove sizes path = some after ∧ after.Exact sizes ∧ SameLimits cache after ∧
      after.entries.entries = eraseKey path cache.entries.entries := by
  unfold remove
  rcases pop_counted hexact.bytes_eq path with ⟨hpop, hsame⟩ | ⟨removed, hpop, hsub, hle⟩
  · rw [hpop]
    exact ⟨cache, rfl, hexact, ⟨rfl, rfl⟩, hsame.symm⟩
  · have hcost : checkedSub cache.bytes (removed.bytes sizes path) =
        some ((cache.entries.pop path).1.total (cost sizes)) := hsub
    rw [hpop]
    simp only [hcost, Option.map_some]
    exact ⟨_, rfl, ⟨rfl, hle.trans hexact.bytes_le, hexact.maxBytes_le⟩, ⟨rfl, rfl⟩, rfl⟩

/-- With an exact counter that may be above the budget, the eviction loop ends within it.
    An entry that fits alone stays. -/
theorem evict_spec {fuel : Nat} (hbytes : cache.bytes = cache.entries.total (cost sizes))
    (hmax : 2 * cache.maxBytes ≤ usizeMax) (hfuel : cache.entries.entries.length ≤ fuel) :
    ∃ after kept, evict sizes fuel cache = some after ∧ after.Exact sizes ∧
      SameLimits cache after ∧ after.entries.entries = cache.entries.entries.take kept ∧
      ∀ path content rest, cache.entries.entries = (path, content) :: rest →
        content.bytes sizes path ≤ cache.maxBytes → 0 < kept := by
  induction fuel generalizing cache with
  | zero =>
    have hnil : cache.entries.entries = [] := List.length_eq_zero_iff.mp (Nat.le_zero.mp hfuel)
    have hzero : cache.bytes = 0 := by simp [hbytes, LruCache.total, hnil]
    refine ⟨cache, 0, ?_, ⟨hbytes, by omega, hmax⟩, ⟨rfl, rfl⟩, by simp [hnil], ?_⟩
    · rw [evict, if_pos (by omega)]
    · intro path content rest hentries
      rw [hnil] at hentries
      cases hentries
  | succ fuel ih =>
    by_cases hroom : cache.bytes ≤ cache.maxBytes
    · refine ⟨cache, cache.entries.entries.length, ?_, ⟨hbytes, hroom, hmax⟩, ⟨rfl, rfl⟩,
        by simp, ?_⟩
      · rw [evict, if_pos hroom]
      · intro path content rest hentries _
        simp [hentries]
    · obtain ⟨removed, hpop, hsub, -⟩ := popLru_counted hbytes (by omega)
      have hcost : checkedSub cache.bytes (removed.2.bytes sizes removed.1) =
          some (cache.entries.popLru.1.total (cost sizes)) := hsub
      let smaller : FileContentCache Stamp :=
        { cache with
          entries := cache.entries.popLru.1
          bytes := cache.entries.popLru.1.total (cost sizes) }
      have hlength : smaller.entries.entries.length ≤ fuel := by
        show cache.entries.entries.dropLast.length ≤ fuel
        rw [List.length_dropLast]
        omega
      obtain ⟨after, kept, hevict, hafter, hsame, hentries, hfirst⟩ :=
        ih (show smaller.bytes = smaller.entries.total (cost sizes) from rfl) hmax hlength
      refine ⟨after, min kept (cache.entries.entries.length - 1), ?_, hafter, hsame, ?_, ?_⟩
      · rw [evict, if_neg hroom, hpop]
        simp only [hcost, Option.bind_some]
        exact hevict
      · rw [hentries]
        show cache.entries.entries.dropLast.take kept = _
        rw [List.dropLast_eq_take, List.take_take]
      · intro path content rest hcons hfits
        -- An entry that is alone and fits is within the budget.
        cases rest with
        | nil =>
          have halone : cache.bytes = content.bytes sizes path := by
            rw [hbytes, LruCache.total, hcons]
            rfl
          omega
        | cons second rest =>
          have hsmaller : smaller.entries.entries =
              (path, content) :: (second :: rest).dropLast := by
            show cache.entries.entries.dropLast = _
            rw [hcons]
            rfl
          have hkept := hfirst path content _ hsmaller hfits
          rw [hcons]
          simp only [List.length_cons]
          omega

/-- What `insert` leaves: the new entry, if it fits, and after it the other entries but for a
    suffix. -/
theorem insert_spec (hexact : cache.Exact sizes) (path : Str)
    (content : CachedFileContent Stamp) :
    ∃ after, cache.insert sizes path content = some after ∧ after.Exact sizes ∧
      SameLimits cache after ∧
      (content.bytes sizes path ≤ cache.maxBytes → ∃ kept, after.entries.entries =
        (path, content) :: (eraseKey path cache.entries.entries).take kept) ∧
      (cache.maxBytes < content.bytes sizes path →
        after.entries.entries = eraseKey path cache.entries.entries) := by
  obtain ⟨without, hremove, hwithout, hsame, hentries⟩ := remove_spec hexact path
  unfold insert
  rw [hremove, Option.bind_some]
  by_cases hfits : content.bytes sizes path ≤ cache.maxBytes
  · have hnot : ¬ content.bytes sizes path > without.maxBytes := by
      rw [hsame.1]
      omega
    have hadd : checkedAdd without.bytes (content.bytes sizes path) =
        some (without.bytes + content.bytes sizes path) := by
      refine checkedAdd_eq (le_trans ?_ hwithout.maxBytes_le)
      have hle := hwithout.bytes_le
      omega
    have habsent : without.entries.peek path = none := by
      refine lookup_of_not_mem ?_
      rw [hentries]
      exact not_mem_eraseKey path _
    obtain ⟨hcap, pushed, hpushed, hpush⟩ :=
      push_counted hwithout.bytes_eq habsent content
    simp only [if_neg hnot, hadd, Option.bind_some]
    -- Both ways the loop starts from an exact counter with the new entry in front.
    have hloop : ∀ total, total = (without.entries.push path content).1.total (cost sizes) →
        ∃ after, evict sizes (without.entries.push path content).1.entries.length
            ⟨(without.entries.push path content).1, total, without.maxBytes⟩ = some after ∧
          after.Exact sizes ∧ SameLimits cache after ∧ ∃ kept, after.entries.entries =
            (path, content) :: (eraseKey path cache.entries.entries).take kept := by
      intro total htotal
      let larger : FileContentCache Stamp :=
        ⟨(without.entries.push path content).1, total, without.maxBytes⟩
      have hlarger : larger.bytes = larger.entries.total (cost sizes) := htotal
      obtain ⟨after, kept, hevict, hafter, hlimits, hkept, hfirst⟩ :=
        evict_spec hlarger hwithout.maxBytes_le le_rfl
      have hpos := hfirst path content _ hpushed (Nat.not_lt.mp hnot)
      refine ⟨after, hevict, hafter, ⟨hlimits.1.trans hsame.1, ?_⟩, min (kept - 1) pushed, ?_⟩
      · rw [hlimits.2, hcap, hsame.2]
      · rw [hkept, hpushed, ← hentries, ← List.take_take]
        obtain ⟨less, rfl⟩ := Nat.exists_eq_succ_of_ne_zero hpos.ne'
        rfl
    rcases hpush with ⟨hpair, htotal⟩ | ⟨removed, left, hpair, hbytes, htotal⟩
    · rw [hpair]
      obtain ⟨after, hevict, hafter, hlimits, hkept⟩ := hloop _ htotal.symm
      exact ⟨after, hevict, hafter, hlimits, fun _ => hkept, fun h => by omega⟩
    · have hsub : checkedSub (without.bytes + content.bytes sizes path)
          (removed.2.bytes sizes removed.1) = some (left + content.bytes sizes path) := by
        have hcost : without.bytes = left + removed.2.bytes sizes removed.1 := hbytes
        rw [hcost, Nat.add_right_comm, checkedSub_add]
      rw [hpair]
      simp only [hsub, Option.bind_some]
      obtain ⟨after, hevict, hafter, hlimits, hkept⟩ := hloop _ htotal.symm
      exact ⟨after, hevict, hafter, hlimits, fun _ => hkept, fun h => by omega⟩
  · have hlarge : content.bytes sizes path > without.maxBytes := by
      rw [hsame.1]
      omega
    rw [if_pos hlarge]
    exact ⟨without, rfl, hwithout, hsame, fun h => absurd h hfits, fun _ => hentries⟩

/-- `lookup` uses the path or takes it away. -/
theorem lookup_spec [DecidableEq Stamp] (hexact : cache.Exact sizes) (path : Str)
    (stamp : Stamp) (indexEpoch : UInt64) :
    ∃ after, cache.lookup sizes path stamp indexEpoch = some after ∧ after.1.Exact sizes ∧
      SameLimits cache after.1 ∧
      ((∃ content, after.2 = some content ∧ cache.entries.peek path = some content ∧
          after.1.entries.entries = (path, content) :: eraseKey path cache.entries.entries) ∨
        after.2 = none ∧ after.1.entries.entries = eraseKey path cache.entries.entries) := by
  let used : FileContentCache Stamp := { cache with entries := (cache.entries.get path).1 }
  have hused : used.Exact sizes := by
    refine ⟨?_, hexact.bytes_le, hexact.maxBytes_le⟩
    show cache.bytes = (cache.entries.get path).1.total (cost sizes)
    rw [LruCache.total_get, hexact.bytes_eq]
  have hlimits : SameLimits cache used := ⟨rfl, cache.entries.get_cap path⟩
  have herase : eraseKey path used.entries.entries = eraseKey path cache.entries.entries := by
    show eraseKey path (cache.entries.get path).1.entries = _
    rw [LruCache.get_entries, eraseKey, eraseKey, List.filter_append, List.filter_filter]
    cases cache.entries.peek path <;> simp
  obtain ⟨without, hremove, hwithout, hsame, hentries⟩ := remove_spec hused path
  have hgone : ∃ after, (used.remove sizes path).map (fun cache => (cache, none)) =
      some after ∧ after.1.Exact sizes ∧ SameLimits cache after.1 ∧
      ((∃ content, after.2 = some content ∧ cache.entries.peek path = some content ∧
          after.1.entries.entries = (path, content) :: eraseKey path cache.entries.entries) ∨
        after.2 = none ∧ after.1.entries.entries = eraseKey path cache.entries.entries) := by
    refine ⟨(without, none), by rw [hremove]; rfl, hwithout, ⟨?_, ?_⟩, .inr ⟨rfl, ?_⟩⟩
    · rw [hsame.1, hlimits.1]
    · rw [hsame.2, hlimits.2]
    · rw [hentries, herase]
  unfold lookup
  rw [LruCache.get_snd]
  cases hpeek : cache.entries.peek path with
  | none =>
    rw [hpeek] at hgone
    exact hgone
  | some content =>
    simp only
    split
    · refine ⟨_, rfl, hused, hlimits, .inl ⟨content, rfl, rfl, ?_⟩⟩
      show (cache.entries.get path).1.entries = _
      rw [LruCache.get_entries, hpeek]
      rfl
    · rw [hpeek] at hgone
      exact hgone

/-- Every call succeeds and keeps the counter exact. -/
theorem call_spec [DecidableEq Stamp] (hexact : cache.Exact sizes)
    (call : FileCacheCall sizes Stamp) :
    ∃ after, cache.call sizes call = some after ∧ after.Exact sizes ∧ SameLimits cache after := by
  cases call with
  | remove path =>
    obtain ⟨after, hremove, hafter, hsame, -⟩ := remove_spec hexact path
    exact ⟨after, hremove, hafter, hsame⟩
  | lookup path stamp indexEpoch =>
    obtain ⟨after, hlookup, hafter, hsame, -⟩ := lookup_spec hexact path stamp indexEpoch
    exact ⟨after.1, by rw [call, hlookup]; rfl, hafter, hsame⟩
  | insert path content _ =>
    obtain ⟨after, hinsert, hafter, hsame, -⟩ := insert_spec hexact path content
    exact ⟨after, hinsert, hafter, hsame⟩

/-- Every sequence of calls does. -/
theorem calls_spec [DecidableEq Stamp] (hexact : cache.Exact sizes)
    (calls : List (FileCacheCall sizes Stamp)) :
    ∃ after, calls.foldlM (FileContentCache.call sizes) cache = some after ∧
      after.Exact sizes ∧ SameLimits cache after := by
  induction calls generalizing cache with
  | nil => exact ⟨cache, rfl, hexact, rfl, rfl⟩
  | cons call calls ih =>
    obtain ⟨next, hcall, hnext, hsame⟩ := call_spec hexact call
    obtain ⟨after, hcalls, hafter, hsameAfter⟩ := ih hnext
    refine ⟨after, ?_, hafter, hsameAfter.1.trans hsame.1, hsameAfter.2.trans hsame.2⟩
    rw [List.foldlM_cons, hcall]
    exact hcalls

end FileContentCache

end Ivygrep.Native
