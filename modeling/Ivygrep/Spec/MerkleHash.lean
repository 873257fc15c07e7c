import Ivygrep.ForStd.List
import Ivygrep.Native.Merkle
import Ivygrep.Spec.StrCorrect

/-!
# Root hashes

`root_hash` hashes the paths and file hashes without separators. Where one map's keys
are among another's and all file hashes have one length, the hashed bytes still tell
the two maps apart.
-/

namespace Ivygrep.Native

/-! ## Hexadecimal digests -/

/-- The bytes of a number determine it. -/
theorem leBytes_injective {width m n : Nat} (hm : m < 256 ^ width) (hn : n < 256 ^ width)
    (h : leBytes width m = leBytes width n) : m = n := by
  have hdigits : ∀ i < width, m / 256 ^ i % 256 = n / 256 ^ i % 256 := by
    intro i hi
    have hbyte := List.map_inj_left.mp h i (List.mem_range.mpr hi)
    have hnat := congrArg UInt8.toNat hbyte
    simpa using hnat
  have hmod : ∀ k ≤ width, m % 256 ^ k = n % 256 ^ k := by
    intro k hk
    induction k with
    | zero => simp [Nat.mod_one]
    | succ k ih => rw [Nat.mod_pow_succ, Nat.mod_pow_succ, ih (by omega), hdigits k (by omega)]
  have := hmod width (Nat.le_refl _)
  rwa [Nat.mod_eq_of_lt hm, Nat.mod_eq_of_lt hn] at this

private theorem hexDigits_injective (left right : UInt8)
    (hhigh : Nat.digitChar (left.toNat / 16) = Nat.digitChar (right.toNat / 16))
    (hlow : Nat.digitChar (left.toNat % 16) = Nat.digitChar (right.toNat % 16)) :
    left = right := by
  have hdigit : ∀ m n : Fin 16, Nat.digitChar m = Nat.digitChar n → m = n := by decide
  have hlt : ∀ byte : UInt8, byte.toNat / 16 < 16 := fun byte => by
    have := byte.toNat_lt
    omega
  have h₁ := hdigit ⟨_, hlt left⟩ ⟨_, hlt right⟩ hhigh
  have h₂ := hdigit ⟨left.toNat % 16, Nat.mod_lt _ (by decide)⟩
    ⟨right.toNat % 16, Nat.mod_lt _ (by decide)⟩ hlow
  simp only [Fin.mk.injEq] at h₁ h₂
  rw [UInt8.eq_iff_toBitVec_eq, ← BitVec.toNat_inj]
  change left.toNat = right.toNat
  omega

/-- Bytes are determined by their hexadecimal form. -/
theorem hexEncode_injective : Function.Injective hexEncode := by
  intro left right h
  induction left generalizing right with
  | nil =>
    cases right with
    | nil => rfl
    | cons byte right => simp [hexEncode] at h
  | cons byte left ih =>
    cases right with
    | nil => simp [hexEncode] at h
    | cons byte' right =>
      simp only [hexEncode, List.flatMap_cons, List.cons_append, List.nil_append,
        List.cons.injEq] at h
      rw [hexDigits_injective byte byte' h.1 h.2.1, ih h.2.2]

/-- Equal digests come from equal hashes. -/
theorem hexDigest_injective {xxh3 : Xxh3} {left right : List UInt8}
    (h : hexDigest xxh3 left = hexDigest xxh3 right) : xxh3 left = xxh3 right := by
  have hnat := leBytes_injective (by exact (xxh3 left).isLt) (by exact (xxh3 right).isLt)
    (hexEncode_injective h)
  exact BitVec.eq_of_toNat_eq hnat

theorem hexDigest_length (xxh3 : Xxh3) (data : List UInt8) :
    (hexDigest xxh3 data).length = 32 := by
  simp [hexDigest, hexEncode, leBytes, List.length_flatMap, Function.comp_def]

/-- A file hash has 34 bytes. -/
theorem flaggedHash_bytes_length (xxh3 : Xxh3) (data : List UInt8) (isIgnored : Bool) :
    (Str.bytes (flaggedHash (hexDigest xxh3 data) isIgnored)).length = 34 := by
  have hdigit : ∀ n : Fin 16, (Nat.digitChar n).toNat ≤ 0x7f := by decide
  have hhex : ∀ c ∈ hexDigest xxh3 data, c.toNat ≤ 0x7f := by
    intro c hc
    simp only [hexDigest, hexEncode, List.mem_flatMap, List.mem_cons, List.not_mem_nil,
      or_false] at hc
    obtain ⟨byte, -, rfl | rfl⟩ := hc
    · have := byte.toNat_lt
      exact hdigit ⟨byte.toNat / 16, by omega⟩
    · exact hdigit ⟨byte.toNat % 16, Nat.mod_lt _ (by decide)⟩
  have hflag : ∀ c ∈ (if isIgnored then "-1" else "-0").toList, c.toNat ≤ 0x7f := by
    have hall : ∀ flag : Bool, ((if flag then "-1" else "-0").toList).all (·.toNat ≤ 0x7f) = true := by
      decide
    simpa [List.all_eq_true] using hall isIgnored
  rw [flaggedHash, Str.bytes_length_of_ascii]
  · rw [List.length_append, hexDigest_length]
    cases isIgnored <;> rfl
  · intro c hc
    rcases List.mem_append.mp hc with hc | hc
    · exact hhex c hc
    · exact hflag c hc

/-! ## The hashed bytes -/

/-- Every file hash of the map has this many bytes. -/
def HashLength (files : List (Str × Str)) (length : Nat) : Prop :=
  ∀ entry ∈ files, (Str.bytes entry.2).length = length

/-- The number of hashed bytes, from the keys alone. -/
private theorem flatMap_bytes_length {files : List (Str × Str)} {length : Nat}
    (h : HashLength files length) :
    (files.flatMap fun (path, hash) => Str.bytes path ++ Str.bytes hash).length =
      ((files.map Prod.fst).map fun path => (Str.bytes path).length + length).sum := by
  induction files with
  | nil => rfl
  | cons entry files ih =>
    have hhead := h entry (by simp)
    have htail := ih fun other hother => h other (List.mem_cons_of_mem _ hother)
    simp only [List.flatMap_cons, List.length_append, htail, List.map_cons, List.sum_cons, hhead]

/-- Lists with the same keys and the same hashed bytes are equal. -/
private theorem eq_of_flatMap_bytes_eq {left right : List (Str × Str)} {length : Nat}
    (hleft : HashLength left length) (hright : HashLength right length)
    (hkeys : left.map Prod.fst = right.map Prod.fst)
    (h : (left.flatMap fun (path, hash) => Str.bytes path ++ Str.bytes hash) =
      right.flatMap fun (path, hash) => Str.bytes path ++ Str.bytes hash) : left = right := by
  induction left generalizing right with
  | nil => exact (List.map_eq_nil_iff.mp hkeys.symm).symm
  | cons entry left ih =>
    cases right with
    | nil => simp at hkeys
    | cons entry' right =>
      obtain ⟨path, hash⟩ := entry
      obtain ⟨path', hash'⟩ := entry'
      simp only [List.map_cons, List.cons.injEq] at hkeys
      obtain ⟨rfl, hkeys⟩ := hkeys
      simp only [List.flatMap_cons, List.append_assoc, List.append_cancel_left_eq] at h
      have hlen : (Str.bytes hash).length = (Str.bytes hash').length :=
        (hleft (path, hash) (by simp)).trans (hright (path, hash') (by simp)).symm
      obtain ⟨hhash, hrest⟩ := List.append_inj h hlen
      rw [Str.bytes_injective hhash,
        ih (fun other hother => hleft other (List.mem_cons_of_mem _ hother))
          (fun other hother => hright other (List.mem_cons_of_mem _ hother)) hkeys hrest]

/-- The hashed bytes tell apart two maps of which one has only keys of the other. -/
theorem files_eq_of_rootHashInput_eq {older newer : BTreeMap Str Str} {length : Nat}
    (hlength : 0 < length) (holder : HashLength older.toList length)
    (hnewer : HashLength newer.toList length) (hkeys : ∀ key ∈ newer, key ∈ older)
    (h : rootHashInput older = rootHashInput newer) : older = newer := by
  have hsorted : ∀ files : BTreeMap Str Str,
      (files.toList.map Prod.fst).Pairwise fun left right => compare left right = .lt :=
    fun files => List.pairwise_map.mpr Std.ExtTreeMap.ordered_keys_toList
  have hsublist : (newer.toList.map Prod.fst).Sublist (older.toList.map Prod.fst) := by
    have : Std.Antisymm fun left right : Str => compare left right = .lt :=
      ⟨fun left right h₁ h₂ => by simp [Std.OrientedCmp.gt_of_lt h₁] at h₂⟩
    have : Std.Irrefl fun left right : Str => compare left right = .lt :=
      ⟨fun key h => by simp [Std.ReflCmp.compare_self] at h⟩
    refine List.sublist_of_subperm_of_pairwise ?_ (hsorted newer) (hsorted older)
    refine List.subperm_of_subset (hsorted newer).nodup fun key hkey => ?_
    rw [Std.ExtTreeMap.map_fst_toList_eq_keys, Std.ExtTreeMap.mem_keys] at hkey ⊢
    exact hkeys key hkey
  -- Equal sums over the keys leave no room for a dropped key.
  have hsum := congrArg List.length h
  rw [rootHashInput, rootHashInput, flatMap_bytes_length holder,
    flatMap_bytes_length hnewer] at hsum
  have heq := ForStd.eq_of_sublist_of_sum_eq hsublist (fun path _ => by omega) hsum.symm
  have hlists := eq_of_flatMap_bytes_eq holder hnewer heq.symm h
  exact Std.ExtTreeMap.toList_inj.mp hlists

end Ivygrep.Native
