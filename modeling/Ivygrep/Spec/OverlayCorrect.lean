import Ivygrep.Spec.OverlayUpdate

/-!
# The effective view of a worktree overlay

After the creation of an overlay and after every incremental update, the base rows that
are neither hidden nor replaced, together with the overlay rows, are those of the
worktree's own scan.

## Key result

- `overlay_view_correct`: the view after any sequence of runs
-/

namespace Ivygrep.Native

variable {xxh3 : Xxh3} {chunked : Str → List UInt8 → Bool} {base : BaseIndex}
  {contentOf : Str → Str → List UInt8}

/-! ## Sequences of runs -/

/-- The overlays that a sequence of runs can leave, with the worktree as the last run
    found it and the files that vanished while it ran. Between two runs the worktree and
    the live base change in any way. -/
inductive OverlayRun (xxh3 : Xxh3) (chunked : Str → List UInt8 → Bool) (base : BaseIndex)
    (contentOf : Str → Str → List UInt8) : Overlay → Checkout → (Str → Bool) → Prop where
  | create {mainRoot worktree : Checkout} {owners : Owners} {vanished : Str → Bool}
      {overlay : Overlay}
      (hholds : base.Holds xxh3 chunked mainRoot)
      (hstamp : Stamped xxh3 contentOf worktree)
      -- `xxh3` tells the contents of the two trees apart.
      (hcollision : ∀ key left right, mainRoot.scanned key = some left →
        worktree.scanned key = some right →
        xxh3 (MerkleSnapshot.contentHashInput key left) =
          xxh3 (MerkleSnapshot.contentHashInput key right) →
        MerkleSnapshot.contentHashInput key left = MerkleSnapshot.contentHashInput key right)
      (hrun : createOverlay xxh3 chunked base mainRoot worktree owners vanished = .ok overlay) :
      OverlayRun xxh3 chunked base contentOf overlay worktree vanished
  | update {before worktree : Checkout} {mainRoot : Option Checkout} {owners : Owners}
      {past vanished : Str → Bool} {overlay next : Overlay}
      (hbefore : OverlayRun xxh3 chunked base contentOf overlay before past)
      (hholds : ∀ root, mainRoot = some root → base.Holds xxh3 chunked root)
      (hstamp : Stamped xxh3 contentOf worktree)
      -- The root hash tells the saved snapshot from that of the new scan.
      (hroot : ∀ new, MerkleSnapshot.buildCheckout xxh3 worktree = .ok new →
        overlay.snapshot.rootHash = new.rootHash → overlay.snapshot.files = new.files)
      (hrun : updateOverlay xxh3 chunked base mainRoot worktree owners vanished overlay =
        .ok next) :
      OverlayRun xxh3 chunked base contentOf next worktree vanished

/-- Every run keeps the state of every path and records the scan. -/
theorem OverlayRun.invariant {overlay : Overlay} {worktree : Checkout} {vanished : Str → Bool}
    (h : OverlayRun xxh3 chunked base contentOf overlay worktree vanished) :
    (∀ key, PathState xxh3 chunked base contentOf overlay key) ∧
      overlay.Records xxh3 worktree vanished ∧ Stamped xxh3 contentOf worktree := by
  induction h with
  | create hholds hstamp hcollision hrun =>
    obtain ⟨hstate, hrecords⟩ := createOverlay_pathState hholds hstamp hcollision hrun
    exact ⟨hstate, hrecords, hstamp⟩
  | update hbefore hholds hstamp hroot hrun ih =>
    obtain ⟨hstate, hrecords⟩ := updateOverlay_pathState hholds hstamp hroot ih.1 hrun
    exact ⟨hstate, hrecords, hstamp⟩

/-! ## The view of one path -/

section View

variable {store : OverlayStore} {key : Str}

/-- Where the base rows are hidden, the view is that of the overlay. -/
theorem effectiveRow_of_hidden (h : key ∈ store.tombstones ↔ key ∈ base.snapshot.files) :
    effectiveRow base store key = store.chunks[key]? := by
  unfold effectiveRow
  cases store.chunks[key]? with
  | some row => rfl
  | none =>
    show (if key ∈ store.tombstones then none else base.rows[key]?) = none
    split
    · rfl
    · rename_i hnot
      apply Std.ExtTreeMap.getElem?_eq_none
      exact fun hrow => hnot (h.mpr (base.recorded key hrow))

/-- Where the overlay has nothing, the view is that of the base. -/
theorem effectiveRow_of_inherited (hchunks : store.chunks[key]? = none)
    (htombstone : key ∉ store.tombstones) : effectiveRow base store key = base.rows[key]? := by
  unfold effectiveRow
  rw [hchunks]
  exact if_neg htombstone

/-- `chunk_backed_paths` lists the paths of the view. -/
theorem isChunkBacked_eq (base : BaseIndex) (store : OverlayStore) (key : Str) :
    isChunkBacked base store key = (effectiveRow base store key).isSome := by
  have hchunks : store.chunks.contains key = store.chunks[key]?.isSome :=
    Std.ExtTreeMap.contains_eq_isSome_getElem?
  have hrows : base.rows.contains key = base.rows[key]?.isSome :=
    Std.ExtTreeMap.contains_eq_isSome_getElem?
  unfold isChunkBacked effectiveRow
  rw [hchunks, hrows]
  cases store.chunks[key]? with
  | some row => simp only [Option.isSome_some, Bool.or_true]
  | none =>
    cases hmem : store.tombstones.contains key with
    | true => simp [Std.ExtTreeMap.contains_iff_mem.mp hmem]
    | false =>
      have hnot : key ∉ store.tombstones := by
        rw [← Std.ExtTreeMap.contains_iff_mem, hmem]
        exact Bool.false_ne_true
      simp [hnot]

end View

/-- The view of a worktree file: its rows are made of bytes with its normal form, and with
    its ignore flag; if not of its own bytes, the base serves it. -/
structure ShowsFile (chunked : Str → List UInt8 → Bool) (base : BaseIndex)
    (store : OverlayStore) (key : Str) (file : SourceFile) (isIgnored : Bool)
    (content : List UInt8) : Prop where
  row : effectiveRow base store key = indexFile chunked key content isIgnored
  normal : normalizedIndexableContent content = normalizedIndexableContent file.content
  source : content = file.content ∨ store.chunks[key]? = none ∧ key ∉ store.tombstones

/-- After any sequence of runs, the view is that of the last scan. A file of the scan shows
    its content, if it did not vanish before the run read it. Another path shows nothing,
    has no overlay rows, and has a tombstone only if the base has it. -/
theorem overlay_view_correct {overlay : Overlay} {worktree : Checkout} {vanished : Str → Bool}
    (h : OverlayRun xxh3 chunked base contentOf overlay worktree vanished) (key : Str) :
    (∀ file, worktree.scanned key = some file →
      (∃ content, ShowsFile chunked base overlay.store key file (worktree.isIgnored key)
          content) ∨
        vanished key = true ∧ effectiveRow base overlay.store key = none) ∧
    (worktree.scanned key = none → effectiveRow base overlay.store key = none ∧
      key ∉ overlay.store.chunks ∧
      (key ∉ base.snapshot.files → key ∉ overlay.store.tombstones)) ∧
    isChunkBacked base overlay.store key = (effectiveRow base overlay.store key).isSome := by
  obtain ⟨hstate, hrecords, hstamp⟩ := h.invariant
  obtain ⟨hash, hhash, hrecord⟩ := hrecords key
  refine ⟨?_, ?_, isChunkBacked_eq base overlay.store key⟩
  · intro file hscanned
    rw [hscanned, Option.map_some] at hrecord
    have hcontent := hstamp key file (worktree.opened_of_scanned hscanned)
    cases hstate key with
    | gone hsnapshot => simp [hsnapshot] at hrecord
    | inherited metadata isIgnored content hsnapshot hchunks htombstone hrow hnormal =>
      left
      obtain ⟨hsame, hflag⟩ := flaggedHash_injective (Option.some.inj (hsnapshot.symm.trans hrecord))
      cases hhash with
      | inr hgone =>
        rw [hgone.1] at hsame
        exact absurd hsame (metadataFileHash_ne_vanished metadata)
      | inl hmetadata =>
        rw [hmetadata] at hsame
        refine ⟨content, ?_, ?_, .inr ⟨hchunks, htombstone⟩⟩
        · rw [effectiveRow_of_inherited hchunks htombstone, hrow, hflag]
        · rw [hnormal, hsame, ← hcontent]
    | owned metadata isIgnored hsnapshot hchunks htombstone =>
      left
      obtain ⟨hsame, hflag⟩ := flaggedHash_injective (Option.some.inj (hsnapshot.symm.trans hrecord))
      cases hhash with
      | inr hgone =>
        rw [hgone.1] at hsame
        exact absurd hsame (metadataFileHash_ne_vanished metadata)
      | inl hmetadata =>
        rw [hmetadata] at hsame
        refine ⟨file.content, ?_, rfl, .inl rfl⟩
        rw [effectiveRow_of_hidden htombstone, hchunks, hsame, ← hcontent, hflag]
    | vanished isIgnored hsnapshot hchunks htombstone =>
      right
      obtain ⟨hsame, -⟩ := flaggedHash_injective (Option.some.inj (hsnapshot.symm.trans hrecord))
      cases hhash with
      | inl hmetadata =>
        rw [hmetadata] at hsame
        exact absurd hsame.symm (metadataFileHash_ne_vanished file.metadata)
      | inr hgone => exact ⟨hgone.2, (effectiveRow_of_hidden htombstone).trans hchunks⟩
  · intro hscanned
    rw [hscanned, Option.map_none] at hrecord
    cases hstate key with
    | gone hsnapshot hchunks htombstone =>
      refine ⟨(effectiveRow_of_hidden htombstone).trans hchunks, ?_, ?_⟩
      · rw [Std.ExtTreeMap.mem_iff_isSome_getElem?, hchunks]
        exact Bool.false_ne_true
      · exact fun hbase hmem => hbase (htombstone.mp hmem)
    | inherited metadata isIgnored content hsnapshot => simp [hsnapshot] at hrecord
    | owned metadata isIgnored hsnapshot => simp [hsnapshot] at hrecord
    | vanished isIgnored hsnapshot => simp [hsnapshot] at hrecord

/-! ## Sample runs -/

/-- The file of an entry. -/
private def entryFile : Entry → Option SourceFile
  | .file file => some file
  | _ => none

/-- The checkout of a tree without symlinks, with a walker that lists every file. -/
private def checkoutOf (tree : Tree) : Checkout where
  tree := tree
  walker _ _ := true
  unignored _ := true
  opened key := (tree.entries.find? fun entry => entry.1.toStr == some key).bind fun entry =>
    entryFile entry.2
  opened_file := by
    intro path key file hkey hentry
    have hmem := Tree.entryAt_eq_some.mp hentry
    have hfound : tree.entries.find? (fun entry => entry.1.toStr == some key) =
        some (path, .file file) := by
      cases hfind : tree.entries.find? (fun entry => entry.1.toStr == some key) with
      | none =>
        have hnot := List.find?_eq_none.mp hfind _ hmem
        simp [hkey] at hnot
      | some entry =>
        have hsame : entry.1 = path := by
          have hstr := List.find?_some hfind
          exact RelPath.toStr_injective (beq_iff_eq.mp hstr) hkey
        have hentry' : (path, entry.2) ∈ tree.entries := by
          rw [← hsame]
          exact List.mem_of_find?_eq_some hfind
        have hlookup := Tree.entryAt_eq_some.mpr hentry'
        rw [hentry] at hlookup
        rw [← hsame, Option.some.inj hlookup]
    rw [hfound]
    rfl

private def flatTree (files : List (RelPath × SourceFile))
    (hflat : ∀ entry ∈ files, entry.1.length = 1) (hnodup : (files.map Prod.fst).Nodup) :
    Tree where
  isDir := some true
  entries := files.map fun entry => (entry.1, .file entry.2)
  unreadable _ := false
  nodup := by
    rw [List.map_map]
    exact hnodup
  parent := by
    intro entry hentry
    obtain ⟨file, hfile, rfl⟩ := List.mem_map.mp hentry
    obtain ⟨name, hname⟩ := List.length_eq_one_iff.mp (hflat file hfile)
    exact ⟨[], name, hname, .inl rfl⟩

/-- The key of a path. -/
private def keyOf (path : RelPath) : Str := path.toStr.getD []

private theorem mem_of_opened {files : List (RelPath × SourceFile)}
    {hflat : ∀ entry ∈ files, entry.1.length = 1} {hnodup : (files.map Prod.fst).Nodup}
    {key : Str} {file : SourceFile}
    (h : (checkoutOf (flatTree files hflat hnodup)).opened key = some file) :
    ∃ path, (path, file) ∈ files ∧ path.toStr = some key ∧ key = keyOf path := by
  obtain ⟨entry, hfind, hentry⟩ := Option.bind_eq_some_iff.mp h
  obtain ⟨found, hfound, rfl⟩ := List.mem_map.mp (List.mem_of_find?_eq_some hfind)
  have hfind' := List.find?_some hfind
  have hkey : found.1.toStr = some key := beq_iff_eq.mp hfind'
  cases hentry
  refine ⟨found.1, hfound, hkey, ?_⟩
  unfold keyOf
  rw [hkey, Option.getD_some]

/-- A hash without collisions on the inputs of the samples. -/
private def overlayXxh3 (data : List UInt8) : BitVec 128 :=
  data.foldl (fun hash byte => hash * 257 + BitVec.ofNat 128 (byte.toNat + 1)) 0

/-- The file with this content, written at this time. -/
private def writtenAt (ctime : Int) (content : List UInt8) : SourceFile :=
  ⟨⟨content.length, some 7, ctime, 0⟩, content⟩

private def pathA : RelPath := [.utf8 ⟨['a'], by decide, by decide⟩]
private def pathB : RelPath := [.utf8 ⟨['b'], by decide, by decide⟩]
private def pathC : RelPath := [.utf8 ⟨['c'], by decide, by decide⟩]

/-- The base: two texts, and a file that is none, with too few printable bytes. -/
private def mainFiles : List (RelPath × SourceFile) :=
  [(pathA, writtenAt 1 [0x78, 0x0a]), (pathB, writtenAt 2 [0x79, 0x0a]),
    (pathC, writtenAt 3 [0xff, 0x61, 0x62, 0x63, 0x64, 0x0a])]

/-- The base files with other line ends, one of them removed. -/
private def crlfFiles : List (RelPath × SourceFile) :=
  [(pathA, writtenAt 4 [0x78, 0x0d, 0x0a]),
    (pathC, writtenAt 5 [0xff, 0x61, 0x62, 0x63, 0x64, 0x0d, 0x0a])]

/-- The worktree of the second run: one text edited, one back as in the base. -/
private def editedFiles : List (RelPath × SourceFile) :=
  [(pathA, writtenAt 6 [0x7a, 0x0a]), (pathB, writtenAt 7 [0x79, 0x0a])]

private def mainCheckout : Checkout := checkoutOf (flatTree mainFiles (by decide) (by decide))
private def crlfCheckout : Checkout := checkoutOf (flatTree crlfFiles (by decide) (by decide))
private def editedCheckout : Checkout := checkoutOf (flatTree editedFiles (by decide) (by decide))

private def always (_ : Str) (_ : List UInt8) : Bool := true

private def contentAt (key stamp : Str) : List UInt8 :=
  (((crlfFiles ++ editedFiles).find? fun entry =>
    keyOf entry.1 == key && metadataFileHash overlayXxh3 entry.2.metadata == stamp).map
      fun entry => entry.2.content).getD []

private def sampleBase : BaseIndex where
  snapshot := (MerkleSnapshot.buildCheckout overlayXxh3 mainCheckout).toOption.getD ⟨[], ∅⟩
  rows := Std.ExtTreeMap.ofList
    [(['a'], ⟨[0x78, 0x0a], false⟩), (['b'], ⟨[0x79, 0x0a], false⟩)] compare
  recorded := by
    intro key hkey
    have hcases : key = ['a'] ∨ key = ['b'] := by
      simpa [Std.ExtTreeMap.mem_ofList] using hkey
    cases hcases with
    | inl h =>
      subst h
      decide +kernel
    | inr h =>
      subst h
      decide +kernel

private theorem mainCheckout_holds : sampleBase.Holds overlayXxh3 always mainCheckout := by
  intro key file isIgnored hopened hrecorded
  obtain ⟨path, hmem, -, rfl⟩ := mem_of_opened hopened
  have hall : ∀ entry ∈ mainFiles, sampleBase.snapshot.files[keyOf entry.1]? =
      some (flaggedHash (metadataFileHash overlayXxh3 entry.2.metadata) false) ∧
      sampleBase.rows[keyOf entry.1]? = indexFile always (keyOf entry.1) entry.2.content false := by
    decide +kernel
  obtain ⟨hhash, hrow⟩ := hall _ hmem
  have hflag := (flaggedHash_injective (Option.some.inj (hhash.symm.trans hrecorded))).2
  rw [← hflag]
  exact hrow

private theorem crlfCheckout_stamped : Stamped overlayXxh3 contentAt crlfCheckout := by
  intro key file hopened
  obtain ⟨path, hmem, -, rfl⟩ := mem_of_opened hopened
  have hall : ∀ entry ∈ crlfFiles, entry.2.content =
      contentAt (keyOf entry.1) (metadataFileHash overlayXxh3 entry.2.metadata) := by
    decide +kernel
  exact hall _ hmem

private theorem editedCheckout_stamped : Stamped overlayXxh3 contentAt editedCheckout := by
  intro key file hopened
  obtain ⟨path, hmem, -, rfl⟩ := mem_of_opened hopened
  have hall : ∀ entry ∈ editedFiles, entry.2.content =
      contentAt (keyOf entry.1) (metadataFileHash overlayXxh3 entry.2.metadata) := by
    decide +kernel
  exact hall _ hmem

private def createdOverlay : Overlay :=
  (createOverlay overlayXxh3 always sampleBase mainCheckout crlfCheckout ⟨[], []⟩
    fun _ => false).toOption.getD ⟨⟨∅, ∅⟩, ⟨[], ∅⟩⟩

private theorem createdOverlay_run :
    OverlayRun overlayXxh3 always sampleBase contentAt createdOverlay crlfCheckout
      fun _ => false := by
  apply OverlayRun.create mainCheckout_holds crlfCheckout_stamped
  · intro key left right hleft hright
    obtain ⟨path, hmem, hkey, rfl⟩ := mem_of_opened (mainCheckout.opened_of_scanned hleft)
    obtain ⟨path', hmem', hkey', -⟩ := mem_of_opened (crlfCheckout.opened_of_scanned hright)
    have hsame := RelPath.toStr_injective hkey hkey'
    subst hsame
    have hall : ∀ l ∈ mainFiles, ∀ r ∈ crlfFiles, l.1 = r.1 →
        MerkleSnapshot.contentHashInput (keyOf l.1) l.2 =
          MerkleSnapshot.contentHashInput (keyOf l.1) r.2 := by
      decide +kernel
    intro _
    exact hall _ hmem _ hmem' rfl
  · show createOverlay overlayXxh3 always sampleBase mainCheckout crlfCheckout ⟨[], []⟩
      (fun _ => false) = .ok createdOverlay
    unfold createdOverlay
    have hok : (createOverlay overlayXxh3 always sampleBase mainCheckout crlfCheckout ⟨[], []⟩
        fun _ => false).toOption.isSome = true := by
      decide +kernel
    cases hrun : createOverlay overlayXxh3 always sampleBase mainCheckout crlfCheckout ⟨[], []⟩
        fun _ => false with
    | error error =>
      rw [hrun] at hok
      cases hok
    | ok overlay => rfl

private def updatedOverlay : Overlay :=
  (updateOverlay overlayXxh3 always sampleBase (some mainCheckout) editedCheckout ⟨[], []⟩
    (fun _ => false) createdOverlay).toOption.getD ⟨⟨∅, ∅⟩, ⟨[], ∅⟩⟩

private theorem updatedOverlay_run :
    OverlayRun overlayXxh3 always sampleBase contentAt updatedOverlay editedCheckout
      fun _ => false := by
  have hholds : ∀ root, some mainCheckout = some root →
      sampleBase.Holds overlayXxh3 always root := by
    intro root hroot
    cases hroot
    exact mainCheckout_holds
  have hroot : ∀ new, MerkleSnapshot.buildCheckout overlayXxh3 editedCheckout = .ok new →
      createdOverlay.snapshot.rootHash = new.rootHash →
      createdOverlay.snapshot.files = new.files := by
    intro new hnew heq
    have hne : (MerkleSnapshot.buildCheckout overlayXxh3 editedCheckout).toOption.map
        MerkleSnapshot.rootHash ≠ some createdOverlay.snapshot.rootHash := by
      decide +kernel
    rw [hnew] at hne
    exact absurd (congrArg some heq.symm) hne
  have hrun : updateOverlay overlayXxh3 always sampleBase (some mainCheckout) editedCheckout
      ⟨[], []⟩ (fun _ => false) createdOverlay = .ok updatedOverlay := by
    unfold updatedOverlay
    have hok : (updateOverlay overlayXxh3 always sampleBase (some mainCheckout) editedCheckout
        ⟨[], []⟩ (fun _ => false) createdOverlay).toOption.isSome = true := by
      decide +kernel
    cases hrun : updateOverlay overlayXxh3 always sampleBase (some mainCheckout) editedCheckout
        ⟨[], []⟩ (fun _ => false) createdOverlay with
    | error error =>
      rw [hrun] at hok
      cases hok
    | ok overlay => rfl
  exact OverlayRun.update createdOverlay_run hholds editedCheckout_stamped hroot hrun

/-- After two runs the view has the edited text, the text that is back as in the base,
    and nothing for the removed file. -/
theorem overlay_view_correct_sample :
    (∃ content, ShowsFile always sampleBase updatedOverlay.store ['a']
      (writtenAt 6 [0x7a, 0x0a]) false content) ∧
    (∃ content, ShowsFile always sampleBase updatedOverlay.store ['b']
      (writtenAt 7 [0x79, 0x0a]) false content) ∧
    effectiveRow sampleBase updatedOverlay.store ['c'] = none := by
  refine ⟨?_, ?_, ?_⟩
  · have hview := (overlay_view_correct updatedOverlay_run ['a']).1
      (writtenAt 6 [0x7a, 0x0a]) (by decide +kernel)
    exact hview.resolve_right fun hgone => Bool.false_ne_true hgone.1
  · have hview := (overlay_view_correct updatedOverlay_run ['b']).1
      (writtenAt 7 [0x79, 0x0a]) (by decide +kernel)
    exact hview.resolve_right fun hgone => Bool.false_ne_true hgone.1
  · exact ((overlay_view_correct updatedOverlay_run ['c']).2.1 (by decide +kernel)).1

/-- Files that differ from the base only in their line ends are served by the base: the
    view has the base content of the first file, and nothing for the second one, although
    its own bytes would be indexed. -/
theorem overlay_view_keeps_line_ends :
    OverlayRun overlayXxh3 always sampleBase contentAt createdOverlay crlfCheckout
      (fun _ => false) ∧
    crlfCheckout.scanned ['a'] = some (writtenAt 4 [0x78, 0x0d, 0x0a]) ∧
    effectiveRow sampleBase createdOverlay.store ['a'] = some ⟨[0x78, 0x0a], false⟩ ∧
    indexFile always ['a'] [0x78, 0x0d, 0x0a] (crlfCheckout.isIgnored ['a']) =
      some ⟨[0x78, 0x0d, 0x0a], false⟩ ∧
    crlfCheckout.scanned ['c'] =
      some (writtenAt 5 [0xff, 0x61, 0x62, 0x63, 0x64, 0x0d, 0x0a]) ∧
    effectiveRow sampleBase createdOverlay.store ['c'] = none ∧
    indexFile always ['c'] [0xff, 0x61, 0x62, 0x63, 0x64, 0x0d, 0x0a]
      (crlfCheckout.isIgnored ['c']) =
        some ⟨[0xff, 0x61, 0x62, 0x63, 0x64, 0x0d, 0x0a], false⟩ := by
  refine ⟨createdOverlay_run, ?_⟩
  decide +kernel

end Ivygrep.Native
