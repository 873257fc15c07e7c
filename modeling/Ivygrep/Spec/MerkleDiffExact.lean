import Ivygrep.Spec.MerkleDiff
import Ivygrep.Spec.MerkleHash

/-!
# When a snapshot diff is exact

`diff` takes equal root hashes for equal files. The root hash is of the paths and file hashes
without separators, so a path that contains a file hash can make two maps look the same.
-/

namespace Ivygrep.Native

/-- A snapshot as it is built or read: the root hash is the one of its files, or it is the empty
    snapshot. A path is not empty. -/
structure MerkleSnapshot.Rooted (xxh3 : Xxh3) (snapshot : MerkleSnapshot) : Prop where
  root : snapshot.rootHash = Native.rootHash xxh3 snapshot.files ∨ snapshot = ⟨[], ∅⟩
  keys : ∀ key ∈ snapshot.files, key ≠ []

/-- The diff is empty for equal maps only, and lists exactly what changed. -/
def MerkleSnapshot.DiffExact (older newer : MerkleSnapshot) : Prop :=
  (older.diff newer = ⟨[], []⟩ ↔ older.files = newer.files) ∧
    (older.diff newer).Describes older.files newer.files

section

variable {xxh3 : Xxh3} {older newer : MerkleSnapshot}

theorem diffExact_of_describes (h : (older.diff newer).Describes older.files newer.files) :
    older.DiffExact newer := by
  refine ⟨⟨fun hempty => ?_, fun hfiles => ?_⟩, h⟩
  · rw [hempty] at h
    exact h.eq_of_empty
  · rw [hfiles] at h
    exact h.unique (MerkleDiff.describes_refl _)

theorem rootHash_ne_nil (files : BTreeMap Str Str) : rootHash xxh3 files ≠ [] := by
  intro hnil
  have hlength := hexDigest_length xxh3 (rootHashInput files)
  rw [show hexDigest xxh3 (rootHashInput files) = [] from hnil] at hlength
  cases hlength

/-- Only the empty map has nothing to hash. -/
theorem files_eq_empty {files : BTreeMap Str Str} (hkeys : ∀ key ∈ files, key ≠ [])
    (h : rootHashInput files = []) : files = ∅ := by
  refine Std.ExtTreeMap.ext_getElem? fun key => ?_
  rw [Std.ExtTreeMap.getElem?_empty, Option.eq_none_iff_forall_ne_some]
  intro hash hget
  have hentry := List.flatMap_eq_nil_iff.mp h (key, hash)
    (Std.ExtTreeMap.mem_toList_iff_getElem?_eq_some.mpr hget)
  have hkey : Str.bytes key = Str.bytes [] := (List.append_eq_nil_iff.mp hentry).1
  have hmem : key ∈ files := by
    rw [← Std.ExtTreeMap.isSome_getElem?_iff_mem, hget]
    rfl
  exact hkeys key hmem (Str.bytes_injective hkey)

/-- Without a collision of the hash function: equal root hashes are those of equal bytes. -/
theorem rootHashInput_eq_of_rootHash_eq (holder : older.Rooted xxh3) (hnewer : newer.Rooted xxh3)
    (hcollision : xxh3 (rootHashInput older.files) = xxh3 (rootHashInput newer.files) →
      rootHashInput older.files = rootHashInput newer.files)
    (h : older.rootHash = newer.rootHash) :
    rootHashInput older.files = rootHashInput newer.files := by
  rcases holder.root with hold | rfl
  · rcases hnewer.root with hnew | rfl
    · rw [hold, hnew] at h
      exact hcollision (hexDigest_injective h)
    · rw [hold] at h
      exact absurd h (rootHash_ne_nil _)
  · rcases hnewer.root with hnew | rfl
    · rw [hnew] at h
      exact absurd h.symm (rootHash_ne_nil _)
    · rfl

/-- The diff is exact if and only if the hashed bytes tell the two maps apart. -/
theorem diff_exact_iff (holder : older.Rooted xxh3) (hnewer : newer.Rooted xxh3)
    (hcollision : xxh3 (rootHashInput older.files) = xxh3 (rootHashInput newer.files) →
      rootHashInput older.files = rootHashInput newer.files) :
    older.DiffExact newer ↔
      (rootHashInput older.files = rootHashInput newer.files → older.files = newer.files) := by
  constructor
  · rintro ⟨hempty, -⟩ hinput
    rcases holder.root with hold | rfl
    · rcases hnewer.root with hnew | rfl
      · apply hempty.mp
        rw [MerkleSnapshot.diff, if_pos]
        rw [hold, hnew, Native.rootHash, Native.rootHash, hinput]
      · exact files_eq_empty holder.keys hinput
    · exact (files_eq_empty hnewer.keys hinput.symm).symm
  · intro hfiles
    apply diffExact_of_describes
    rw [MerkleSnapshot.diff]
    split
    · next hroot =>
      rw [hfiles (rootHashInput_eq_of_rootHash_eq holder hnewer hcollision hroot)]
      exact MerkleDiff.describes_refl _
    · exact diffLists_describes _ _

end

/-! ## Names without a file hash -/

/-- A lowercase hexadecimal digit, as a byte. -/
def isHexByte (byte : UInt8) : Bool :=
  (0x30 ≤ byte && byte ≤ 0x39) || (0x61 ≤ byte && byte ≤ 0x66)

/-- The digest of a file hash: 32 hexadecimal digits. -/
def IsDigest (bytes : List UInt8) : Prop := bytes.length = 32 ∧ ∀ byte ∈ bytes, isHexByte byte = true

/-- A file hash: a digest, a dash and the ignore flag. -/
def IsFileHash (bytes : List UInt8) : Prop :=
  ∃ digest flag, bytes = digest ++ [0x2d, flag] ∧ IsDigest digest

/-- No digest stands before a dash in the name. -/
def PlainName (bytes : List UInt8) : Prop :=
  ∀ first digest last, bytes = first ++ digest ++ 0x2d :: last → ¬ IsDigest digest

/-- The first digest before a dash is that of the file hash. -/
theorem PlainName.length_le {left right digest digest' rest rest' : List UInt8}
    (hright : PlainName right) (hdigest : IsDigest digest) (hdigest' : IsDigest digest')
    (h : left ++ digest ++ 0x2d :: rest = right ++ digest' ++ 0x2d :: rest') :
    right.length ≤ left.length := by
  by_contra hlt
  rw [Nat.not_le] at hlt
  rw [List.append_assoc, List.append_assoc] at h
  obtain ⟨middle, hmiddle, hrest⟩ : ∃ middle, right = left ++ middle ∧
      digest ++ 0x2d :: rest = middle ++ (digest' ++ 0x2d :: rest') := by
    rcases List.append_eq_append_iff.mp h with ⟨middle, hleft, hrest⟩ | ⟨middle, hright, hrest⟩
    · exact ⟨middle, hleft, hrest⟩
    · rw [hright, List.length_append] at hlt
      omega
  rcases Nat.lt_or_ge 32 middle.length with hlong | hshort
  · -- The digest and its dash stand in the longer name.
    obtain ⟨last, hlast⟩ : ∃ last, middle = digest ++ 0x2d :: last := by
      rcases List.append_eq_append_iff.mp hrest with ⟨last, hmiddle, hdash⟩ | ⟨last, hlast, -⟩
      · cases last with
        | nil =>
          rw [hmiddle, List.append_nil, hdigest.1] at hlong
          omega
        | cons byte last =>
          cases hdash
          exact ⟨last, hmiddle⟩
      · have hlength := congrArg List.length hlast
        rw [List.length_append, hdigest.1] at hlength
        omega
    apply hright left digest last _ hdigest
    rw [hmiddle, hlast, List.append_assoc]
  · -- Where one text has the dash the other has a hexadecimal digit.
    have hpos : 0 < middle.length := by
      rw [hmiddle, List.length_append] at hlt
      omega
    have hget : (digest ++ 0x2d :: rest)[32]? = some 0x2d := by
      rw [List.getElem?_append_right (Nat.le_of_eq hdigest.1), hdigest.1]
      rfl
    rw [hrest, List.getElem?_append_right hshort,
      List.getElem?_append_left (by rw [hdigest'.1]; omega)] at hget
    have hhex := hdigest'.2 _ (List.mem_of_getElem? hget)
    exact absurd hhex (by decide)

/-- With plain names the hashed bytes determine the list of files. -/
theorem files_eq_of_plainNames {left right : List (Str × Str)}
    (hleft : ∀ entry ∈ left, PlainName (Str.bytes entry.1) ∧ IsFileHash (Str.bytes entry.2))
    (hright : ∀ entry ∈ right, PlainName (Str.bytes entry.1) ∧ IsFileHash (Str.bytes entry.2))
    (h : (left.flatMap fun entry => Str.bytes entry.1 ++ Str.bytes entry.2) =
      right.flatMap fun entry => Str.bytes entry.1 ++ Str.bytes entry.2) : left = right := by
  have hne : ∀ (path hash : Str) (rest : List UInt8), IsFileHash (Str.bytes hash) →
      Str.bytes path ++ Str.bytes hash ++ rest ≠ [] := by
    rintro path hash rest ⟨digest, flag, hhash, -⟩ hnil
    simp [hhash] at hnil
  induction left generalizing right with
  | nil =>
    cases right with
    | nil => rfl
    | cons entry right => exact absurd h.symm (hne _ _ _ (hright entry List.mem_cons_self).2)
  | cons entry left ih =>
    cases right with
    | nil => exact absurd h (hne _ _ _ (hleft entry List.mem_cons_self).2)
    | cons entry' right =>
      obtain ⟨hplain, digest, flag, hhash, hdigest⟩ := hleft entry List.mem_cons_self
      obtain ⟨hplain', digest', flag', hhash', hdigest'⟩ := hright entry' List.mem_cons_self
      rw [List.flatMap_cons, List.flatMap_cons] at h
      have hbytes := h
      rw [hhash, hhash', List.append_assoc, List.append_assoc, List.append_assoc,
        List.append_assoc, ← List.append_assoc, ← List.append_assoc (Str.bytes entry'.1)] at hbytes
      have hlength : (Str.bytes entry.1).length = (Str.bytes entry'.1).length :=
        Nat.le_antisymm (hplain.length_le hdigest' hdigest hbytes.symm)
          (hplain'.length_le hdigest hdigest' hbytes)
      rw [List.append_assoc, List.append_assoc] at h
      obtain ⟨hpath, hrest⟩ := List.append_inj h hlength
      have hhashes : (Str.bytes entry.2).length = (Str.bytes entry'.2).length := by
        rw [hhash, hhash', List.length_append, List.length_append, hdigest.1, hdigest'.1]
        rfl
      obtain ⟨hsame, hothers⟩ := List.append_inj hrest hhashes
      rw [Prod.ext (Str.bytes_injective hpath) (Str.bytes_injective hsame),
        ih (fun other hother => hleft other (List.mem_cons_of_mem _ hother))
          (fun other hother => hright other (List.mem_cons_of_mem _ hother)) hothers]

/-- The diff of snapshots with file hashes is exact where no name contains a digest and a dash. -/
theorem diff_exact_of_plainNames {xxh3 : Xxh3} {older newer : MerkleSnapshot}
    (holder : older.Rooted xxh3) (hnewer : newer.Rooted xxh3)
    (hcollision : xxh3 (rootHashInput older.files) = xxh3 (rootHashInput newer.files) →
      rootHashInput older.files = rootHashInput newer.files)
    (hplain : ∀ entry ∈ older.files.toList ++ newer.files.toList,
      PlainName (Str.bytes entry.1) ∧ IsFileHash (Str.bytes entry.2)) :
    older.DiffExact newer := by
  apply (diff_exact_iff holder hnewer hcollision).mpr
  intro hinput
  apply Std.ExtTreeMap.toList_inj.mp
  exact files_eq_of_plainNames (fun entry hentry => hplain entry (List.mem_append_left _ hentry))
    (fun entry hentry => hplain entry (List.mem_append_right _ hentry)) hinput

/-! ## A name that contains a file hash -/

private def countingXxh3 (data : List UInt8) : BitVec 128 :=
  data.foldl (fun hash byte => hash * 257 + BitVec.ofNat 128 (byte.toNat + 1)) 0

private def digestOf (digit : Char) : Str := List.replicate 32 digit ++ ['-', '0']

private def rootedSnapshot (files : List (Str × Str)) : MerkleSnapshot :=
  let files := Std.ExtTreeMap.ofList files compare
  { rootHash := rootHash countingXxh3 files, files }

private theorem rootedSnapshot_rooted {files : List (Str × Str)}
    (h : ∀ key ∈ (Std.ExtTreeMap.ofList files compare : BTreeMap Str Str), key ≠ []) :
    (rootedSnapshot files).Rooted countingXxh3 := ⟨.inl rfl, h⟩

/-- A changed file between two snapshots. -/
theorem diff_exact_iff_sample :
    (rootedSnapshot [(['a'], digestOf '0')]).DiffExact (rootedSnapshot [(['a'], digestOf '1')]) ↔
      (rootHashInput (rootedSnapshot [(['a'], digestOf '0')]).files =
          rootHashInput (rootedSnapshot [(['a'], digestOf '1')]).files →
        (rootedSnapshot [(['a'], digestOf '0')]).files =
          (rootedSnapshot [(['a'], digestOf '1')]).files) := by
  have hkeys : ∀ hash : Str, ∀ key ∈
      (Std.ExtTreeMap.ofList [(['a'], hash)] compare : BTreeMap Str Str), key ≠ [] := by
    rintro hash key hkey rfl
    exact absurd (Std.ExtTreeMap.mem_ofList.mp hkey) (by simp)
  apply diff_exact_iff (rootedSnapshot_rooted (hkeys _)) (rootedSnapshot_rooted (hkeys _))
  intro heq
  exact absurd heq (by decide +kernel)

/-- Two files go and one comes whose name is the first name, its hash and the second name: the
    diff is empty. -/
theorem diff_misses_name_with_hash :
    (rootedSnapshot [(['a'], digestOf '0'), (['b'], digestOf '1')]).diff
        (rootedSnapshot [(['a'] ++ digestOf '0' ++ ['b'], digestOf '1')]) = ⟨[], []⟩ ∧
      (rootedSnapshot [(['a'], digestOf '0'), (['b'], digestOf '1')]).files.toList ≠
        (rootedSnapshot [(['a'] ++ digestOf '0' ++ ['b'], digestOf '1')]).files.toList := by
  decide +kernel

end Ivygrep.Native
