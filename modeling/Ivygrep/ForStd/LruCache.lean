import Mathlib

/-!
# LRU maps

A bounded map that lists its entries from the most to the least recently used one. Each
operation carries the proof that keys stay distinct and that the bound holds.
-/

namespace ForStd

variable {K V : Type*} [DecidableEq K]

/-- The entries of a map without those of one key. -/
def eraseKey (key : K) (entries : List (K × V)) : List (K × V) :=
  entries.filter fun entry => entry.1 ≠ key

theorem eraseKey_sublist (key : K) (entries : List (K × V)) :
    (eraseKey key entries).Sublist entries :=
  List.filter_sublist

theorem not_mem_eraseKey (key : K) (entries : List (K × V)) :
    key ∉ (eraseKey key entries).map Prod.fst := by
  simp [eraseKey]

theorem eraseKey_of_not_mem {key : K} {entries : List (K × V)}
    (h : key ∉ entries.map Prod.fst) : eraseKey key entries = entries := by
  rw [eraseKey, List.filter_eq_self]
  intro entry hentry
  have hne : entry.1 ≠ key := fun heq => h (heq ▸ List.mem_map_of_mem hentry)
  simpa using hne

theorem eraseKey_cons_self (key : K) (value : V) (entries : List (K × V)) :
    eraseKey key ((key, value) :: entries) = eraseKey key entries := by
  simp [eraseKey]

theorem lookup_of_not_mem {key : K} {entries : List (K × V)} (h : key ∉ entries.map Prod.fst) :
    entries.lookup key = none := by
  rw [List.lookup_eq_none_iff]
  intro entry hentry
  have hne : key ≠ entry.1 := fun heq => h (heq ▸ List.mem_map_of_mem hentry)
  simpa using hne

theorem not_mem_of_lookup {key : K} {entries : List (K × V)} (h : entries.lookup key = none) :
    key ∉ entries.map Prod.fst := by
  intro hmem
  obtain ⟨entry, hentry, rfl⟩ := List.mem_map.mp hmem
  have hnone := List.lookup_eq_none_iff.mp h entry hentry
  simp at hnone

/-- In a map with distinct keys, the sum over the entries loses what a key had. -/
theorem sum_eraseKey (cost : K → V → Nat) {key : K} {value : V} {entries : List (K × V)}
    (hnodup : (entries.map Prod.fst).Nodup) (h : entries.lookup key = some value) :
    (entries.map fun entry => cost entry.1 entry.2).sum =
      ((eraseKey key entries).map fun entry => cost entry.1 entry.2).sum + cost key value := by
  induction entries with
  | nil => simp at h
  | cons entry entries ih =>
    obtain ⟨first, found⟩ := entry
    rw [List.map_cons, List.nodup_cons] at hnodup
    by_cases hkey : key = first
    · subst hkey
      have hvalue : found = value := by simpa using h
      rw [eraseKey_cons_self, eraseKey_of_not_mem hnodup.1, hvalue, List.map_cons, List.sum_cons]
      exact Nat.add_comm _ _
    · rw [List.lookup_cons, beq_eq_false_iff_ne.mpr hkey] at h
      have hkeep : eraseKey key ((first, found) :: entries) =
          (first, found) :: eraseKey key entries := by
        simp [eraseKey, Ne.symm hkey]
      rw [hkeep, List.map_cons, List.map_cons, List.sum_cons, List.sum_cons, ih hnodup.2 h]
      omega

/-- A bounded map, from the most to the least recently used entry. -/
structure LruCache (K V : Type*) [DecidableEq K] where
  cap : Nat
  cap_pos : 0 < cap
  entries : List (K × V)
  nodup : (entries.map Prod.fst).Nodup
  length_le : entries.length ≤ cap

namespace LruCache

variable (cache : LruCache K V)

@[simps cap entries]
def new (cap : Nat) (hcap : 0 < cap) : LruCache K V := ⟨cap, hcap, [], by simp, by simp⟩

/-- The value of a key, without using it. -/
def peek (key : K) : Option V := cache.entries.lookup key

/-- A map with some of the entries, in the same order. -/
@[simps cap entries]
def restrict (entries : List (K × V)) (h : entries.Sublist cache.entries) : LruCache K V where
  cap := cache.cap
  cap_pos := cache.cap_pos
  entries := entries
  nodup := cache.nodup.sublist (h.map Prod.fst)
  length_le := h.length_le.trans cache.length_le

/-- The map without a key, and the value that the key had. -/
def pop (key : K) : LruCache K V × Option V :=
  (cache.restrict (eraseKey key cache.entries) (eraseKey_sublist key _), cache.peek key)

/-- The map without its least recently used entry. -/
def popLru : LruCache K V × Option (K × V) :=
  (cache.restrict cache.entries.dropLast (List.dropLast_sublist _), cache.entries.getLast?)

/-- The map with a new first entry, where there is room for it. -/
@[simps cap entries]
def cons (key : K) (value : V) (hkey : key ∉ cache.entries.map Prod.fst)
    (hroom : cache.entries.length < cache.cap) : LruCache K V where
  cap := cache.cap
  cap_pos := cache.cap_pos
  entries := (key, value) :: cache.entries
  nodup := by
    rw [List.map_cons, List.nodup_cons]
    exact ⟨hkey, cache.nodup⟩
  length_le := by
    rw [List.length_cons]
    omega

theorem length_eraseKey_lt {key : K} {value : V} (h : cache.peek key = some value) :
    (eraseKey key cache.entries).length < cache.cap := by
  have hsum := sum_eraseKey (fun _ _ => 1) cache.nodup h
  have hlength := cache.length_le
  simp at hsum
  omega

/-- Uses a key: its entry becomes the first one. -/
def get (key : K) : LruCache K V × Option V :=
  match h : cache.peek key with
  | none => (cache, none)
  | some value =>
    ((cache.pop key).1.cons key value (not_mem_eraseKey key _) (cache.length_eraseKey_lt h),
      some value)

/-- Makes an entry the first one. Returns the entry that it replaces or, in a full map, the
    least recently used one, which leaves. -/
def push (key : K) (value : V) : LruCache K V × Option (K × V) :=
  match h : cache.peek key with
  | some old =>
    ((cache.pop key).1.cons key value (not_mem_eraseKey key _) (cache.length_eraseKey_lt h),
      some (key, old))
  | none =>
    have hkey := not_mem_of_lookup h
    if hroom : cache.entries.length < cache.cap then (cache.cons key value hkey hroom, none)
    else
      (cache.popLru.1.cons key value
          (fun hmem => hkey (((List.dropLast_sublist _).map Prod.fst).subset hmem)) (by
            have hpos := cache.cap_pos
            have hlength := cache.length_le
            simp only [popLru, restrict_entries, restrict_cap, List.length_dropLast]
            omega),
        cache.popLru.2)

/-! ## What the operations do -/

@[simp] theorem pop_entries (key : K) :
    (cache.pop key).1.entries = eraseKey key cache.entries :=
  rfl

@[simp] theorem pop_cap (key : K) : (cache.pop key).1.cap = cache.cap := rfl

@[simp] theorem pop_snd (key : K) : (cache.pop key).2 = cache.peek key := rfl

@[simp] theorem popLru_entries : cache.popLru.1.entries = cache.entries.dropLast := rfl

@[simp] theorem popLru_cap : cache.popLru.1.cap = cache.cap := rfl

@[simp] theorem popLru_snd : cache.popLru.2 = cache.entries.getLast? := rfl

theorem peek_pop_self (key : K) : (cache.pop key).1.peek key = none :=
  lookup_of_not_mem (not_mem_eraseKey key _)

theorem get_snd (key : K) : (cache.get key).2 = cache.peek key := by
  unfold get
  split
  · next h => exact h.symm
  · next h => exact h.symm

/-- Using a key moves its entry to the front and changes nothing else. -/
theorem get_entries (key : K) :
    (cache.get key).1.entries =
      ((cache.peek key).map fun value => (key, value)).toList ++ eraseKey key cache.entries := by
  unfold get
  split
  · next h =>
    rw [h, eraseKey_of_not_mem (not_mem_of_lookup h)]
    rfl
  · next value h =>
    show (key, value) :: eraseKey key cache.entries = _
    simp [h]

@[simp] theorem get_cap (key : K) : (cache.get key).1.cap = cache.cap := by
  unfold get
  split <;> rfl

/-- A new key goes in front; in a full map the least recently used entry leaves. -/
theorem push_of_not_mem {key : K} (h : cache.peek key = none) (value : V) :
    (cache.push key value).1.cap = cache.cap ∧
    ((cache.entries.length < cache.cap ∧
        (cache.push key value).1.entries = (key, value) :: cache.entries ∧
        (cache.push key value).2 = none) ∨
      (¬ cache.entries.length < cache.cap ∧
        (cache.push key value).1.entries = (key, value) :: cache.entries.dropLast ∧
        (cache.push key value).2 = cache.entries.getLast?)) := by
  unfold push
  split
  · next old hold =>
    rw [hold] at h
    cases h
  · split
    · next hroom => exact ⟨rfl, .inl ⟨hroom, rfl, rfl⟩⟩
    · next hfull => exact ⟨rfl, .inr ⟨hfull, rfl, rfl⟩⟩

/-! ## Costs -/

variable (cost : K → V → Nat)

/-- The sum of the costs of the entries. -/
def total : Nat := (cache.entries.map fun entry => cost entry.1 entry.2).sum

theorem total_of_entries {first second : LruCache K V} (h : first.entries = second.entries) :
    first.total cost = second.total cost := by
  rw [total, total, h]

/-- Removing a key takes away what its entry costs. -/
theorem total_pop (key : K) :
    cache.total cost =
      (cache.pop key).1.total cost + ((cache.peek key).map (cost key)).getD 0 := by
  cases h : cache.peek key with
  | none =>
    rw [total, total, pop_entries, eraseKey_of_not_mem (not_mem_of_lookup h)]
    rfl
  | some value => exact sum_eraseKey cost cache.nodup h

/-- Using a key keeps the total. -/
theorem total_get (key : K) : (cache.get key).1.total cost = cache.total cost := by
  rw [cache.total_pop cost key, total, get_entries, List.map_append, List.sum_append, total,
    pop_entries, Nat.add_comm]
  cases cache.peek key <;> simp

/-- Removing the least recently used entry takes away what it costs. -/
theorem total_popLru :
    cache.total cost = cache.popLru.1.total cost +
      (cache.entries.getLast?.map fun entry => cost entry.1 entry.2).getD 0 := by
  rw [total, total, popLru_entries]
  cases h : cache.entries.getLast? with
  | none => rw [List.getLast?_eq_none_iff.mp h]; rfl
  | some entry =>
    conv_lhs => rw [← List.dropLast_append_getLast? entry h]
    simp

end LruCache

end ForStd
