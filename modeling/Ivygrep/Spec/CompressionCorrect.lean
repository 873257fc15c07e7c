import Ivygrep.Native.Compression
import Ivygrep.Spec.MerkleHash

/-!
# Stored text comes back

Text that is stored is read back unchanged, whether it was compressed or not, and what is read
from a frame is never longer than the limit.
-/

namespace Ivygrep.Native

namespace Compression

/-- What `zstd` documents of a frame that `compress` makes, and of a buffer. -/
structure Zstd.Documented (zstd : Zstd) : Prop where
  magic : ∀ raw frame, zstd.compress raw = some frame → zstdMagic <+: frame
  contentSize : ∀ raw frame, zstd.compress raw = some frame →
    zstd.getFrameContentSize frame = some (some raw.length)
  decompress : ∀ raw frame decoded, zstd.compress raw = some frame →
    zstd.decompressToBuffer frame raw.length = some decoded → decoded = raw
  stream : ∀ raw frame, zstd.compress raw = some frame → zstd.stream frame = some (raw, false)
  capacity : ∀ frame size decoded, zstd.decompressToBuffer frame size = some decoded →
    decoded.length ≤ size

/-- No text starts like a frame: the second byte of the marker is inside a character, and the
    first one is a whole character. -/
theorem not_magic_of_text (text : Str) : ¬ zstdMagic <+: Str.bytes text := by
  rintro ⟨after, h⟩
  have hparen : ForStd.Utf8.decode (Str.bytes text) = .char '(' 1 := by
    rw [← h]
    rfl
  obtain ⟨rest, hbytes, -⟩ := ForStd.Utf8.utf8EncodeChar_of_decode hparen
  cases text with
  | nil => cases hparen
  | cons c text =>
    rw [Str.bytes, List.flatMap_cons, ForStd.Utf8.decode_utf8EncodeChar] at hparen
    obtain ⟨rfl, -⟩ := ForStd.Utf8.Step.char.inj hparen
    have hnext : (0xb5 : UInt8) :: [0x2f, 0xfd] ++ after = Str.bytes text := by
      have hcons : (0x28 : UInt8) :: ([0xb5, 0x2f, 0xfd] ++ after) = 0x28 :: Str.bytes text := h
      exact (List.cons.inj hcons).2
    cases text with
    | nil => cases hnext
    | cons d text =>
      obtain ⟨first, others, hfirst, hnot, -⟩ := ForStd.Utf8.utf8EncodeChar_parts d
      rw [Str.bytes, List.flatMap_cons, hfirst] at hnext
      obtain ⟨rfl, -⟩ := List.cons.inj hnext
      apply hnot
      show 0x80 ≤ 0xb5 ∧ 0xb5 < 0xc0
      decide

section

variable {zstd : Zstd}

theorem tryDecompressText_plain (text : Str) : tryDecompressText zstd (Str.bytes text) = .ok text := by
  have hplain : zstdMagic.isPrefixOf (Str.bytes text) = false := by
    rw [← Bool.not_eq_true, List.isPrefixOf_iff_prefix]
    exact not_magic_of_text text
  rw [tryDecompressText, hplain, Str.fromUtf8_bytes]
  rfl

theorem decompressSizedFrame_spec (hzstd : zstd.Documented) {raw frame decoded : List UInt8}
    (h : zstd.compress raw = some frame) (hsized : decompressSizedFrame zstd frame = some decoded) :
    decoded = raw := by
  simp only [decompressSizedFrame, hzstd.contentSize _ _ h, Option.bind_eq_bind,
    Option.bind_some, Option.bind_eq_some_iff] at hsized
  obtain ⟨compressedSize, -, hsized⟩ := hsized
  split at hsized
  · cases hsized
  · exact hzstd.decompress _ _ _ h hsized

theorem decompressFrameStream_spec (hzstd : zstd.Documented) {raw frame : List UInt8}
    (h : zstd.compress raw = some frame) (hsize : raw.length ≤ maxDecompressedTextBytes) :
    decompressFrameStream zstd frame = .ok raw := by
  have hread : readToEnd (maxDecompressedTextBytes + 1) (raw, false) = .ok raw := by
    unfold readToEnd
    rw [if_neg (by dsimp only; omega), if_neg (by simp)]
  unfold decompressFrameStream
  rw [hzstd.stream _ _ h]
  dsimp only
  rw [hread]
  exact if_pos hsize

/-- Both ways to decode a frame give back what was compressed. -/
theorem tryDecompressText_frame (hzstd : zstd.Documented) {text : Str} {frame : List UInt8}
    (hsize : (Str.bytes text).length ≤ maxDecompressedTextBytes)
    (h : zstd.compress (Str.bytes text) = some frame) :
    tryDecompressText zstd frame = .ok text := by
  have hdecoded : decompressFrame zstd frame = .ok (Str.bytes text) := by
    unfold decompressFrame
    cases hsized : decompressSizedFrame zstd frame with
    | none => exact decompressFrameStream_spec hzstd h hsize
    | some decoded => rw [decompressSizedFrame_spec hzstd h hsized]
  rw [tryDecompressText, if_pos (List.isPrefixOf_iff_prefix.mpr (hzstd.magic _ _ h)), hdecoded]
  show decodedText (Str.bytes text) = _
  rw [decodedText, Str.fromUtf8_bytes]

theorem tryDecompressText_compressText (hzstd : zstd.Documented) {text : Str}
    (hsize : (Str.bytes text).length ≤ maxDecompressedTextBytes) :
    tryDecompressText zstd (compressText zstd text) = .ok text := by
  unfold compressText
  dsimp only
  split
  · exact tryDecompressText_plain text
  · cases hcompress : zstd.compress (Str.bytes text) with
    | none => exact tryDecompressText_plain text
    | some frame =>
      rw [Option.filter_some]
      split
      · exact tryDecompressText_frame hzstd hsize hcompress
      · exact tryDecompressText_plain text

/-- What comes out of a frame is within the limit. -/
theorem decompressFrame_length (hzstd : zstd.Documented) {raw decoded : List UInt8}
    (h : decompressFrame zstd raw = .ok decoded) : decoded.length ≤ maxDecompressedTextBytes := by
  unfold decompressFrame at h
  cases hsized : decompressSizedFrame zstd raw with
  | some sized =>
    rw [hsized] at h
    cases h
    simp only [decompressSizedFrame, Option.bind_eq_bind, Option.bind_eq_some_iff] at hsized
    obtain ⟨known, -, contentSize, -, compressedSize, -, hsized⟩ := hsized
    split at hsized
    · cases hsized
    · next hfits =>
      rw [not_or, Nat.not_lt] at hfits
      exact Nat.le_trans (hzstd.capacity _ _ _ hsized) hfits.1
  | none =>
    rw [hsized] at h
    unfold decompressFrameStream at h
    dsimp only at h
    split at h
    · cases h
    · next stream hstream =>
      cases hread : readToEnd (maxDecompressedTextBytes + 1) stream with
      | error error =>
        rw [hread] at h
        cases h
      | ok bytes =>
        rw [hread] at h
        have hensure : ensureSize bytes = .ok decoded := h
        unfold ensureSize at hensure
        split at hensure
        · cases hensure
          assumption
        · cases hensure

theorem tryDecompressText_length (hzstd : zstd.Documented) {raw : List UInt8} {text : Str}
    (hmagic : zstdMagic <+: raw) (h : tryDecompressText zstd raw = .ok text) :
    (Str.bytes text).length ≤ maxDecompressedTextBytes := by
  rw [tryDecompressText, if_pos (List.isPrefixOf_iff_prefix.mpr hmagic)] at h
  cases hframe : decompressFrame zstd raw with
  | error error =>
    rw [hframe] at h
    cases h
  | ok decoded =>
    rw [hframe] at h
    have hdecoded : decodedText decoded = .ok text := h
    unfold decodedText at hdecoded
    split at hdecoded
    · next found hfound =>
      cases hdecoded
      rw [Str.bytes_of_fromUtf8 hfound]
      exact decompressFrame_length hzstd hframe
    · cases hdecoded

/-- Text of at most the limit comes back, no plain text looks like a frame, and a value that
    looks like one gives an error or text within the limit. -/
theorem storedText_survives (hzstd : zstd.Documented) :
    (∀ text, (Str.bytes text).length ≤ maxDecompressedTextBytes →
      tryDecompressText zstd (compressText zstd text) = .ok text) ∧
    (∀ text, ¬ zstdMagic <+: Str.bytes text) ∧
    ∀ raw, zstdMagic <+: raw → ∀ text, tryDecompressText zstd raw = .ok text →
      (Str.bytes text).length ≤ maxDecompressedTextBytes :=
  ⟨fun _ hsize => tryDecompressText_compressText hzstd hsize, not_magic_of_text,
    fun _ hmagic _ h => tryDecompressText_length hzstd hmagic h⟩

end

/-! ## Frames of one repeated byte -/

/-- A frame with its content size and one block that repeats a byte. -/
private def repeatFrame (count : Nat) (byte : UInt8) : List UInt8 :=
  zstdMagic ++ [0xe0] ++ leBytes 8 count ++ leBytes 3 (8 * count + 3) ++ [byte]

private def leNat (bytes : List UInt8) : Nat :=
  bytes.foldr (fun byte value => byte.toNat + 256 * value) 0

private def readRepeat (frame : List UInt8) : Option (Nat × UInt8) :=
  if frame.take 5 = zstdMagic ++ [0xe0] ∧ frame.length = 17 then
    some (leNat ((frame.drop 5).take 8), frame.getLastD 0)
  else none

private theorem readRepeat_repeatFrame {count : Nat} (h : count < 2 ^ 17) (byte : UInt8) :
    readRepeat (repeatFrame count byte) = some (count, byte) := by
  have hsize : leNat (leBytes 8 count) = count := by
    simp [leNat, leBytes, List.range_succ]
    omega
  have hlength : ∀ width n, (leBytes width n).length = width := by simp [leBytes]
  unfold readRepeat repeatFrame
  rw [if_pos]
  · rw [List.getLastD_concat]
    simp [zstdMagic, hlength, hsize]
  · simp [zstdMagic, hlength]

/-- The part of zstd that compresses texts of one repeated byte. -/
private def repeatZstd : Zstd where
  compress raw :=
    if raw.length < 2 ^ 17 ∧ raw = List.replicate raw.length (raw.headD 0) then
      some (repeatFrame raw.length (raw.headD 0))
    else none
  getFrameContentSize frame := (readRepeat frame).map fun block => some block.1
  findFrameCompressedSize frame := (readRepeat frame).map fun _ => frame.length
  decompressToBuffer frame size := (readRepeat frame).bind fun block =>
    if block.1 ≤ size then some (List.replicate block.1 block.2) else none
  stream frame := (readRepeat frame).map fun block => (List.replicate block.1 block.2, false)

private theorem repeatZstd_compress {raw frame : List UInt8}
    (h : repeatZstd.compress raw = some frame) :
    readRepeat frame = some (raw.length, raw.headD 0) ∧ zstdMagic <+: frame ∧
      raw = List.replicate raw.length (raw.headD 0) := by
  unfold repeatZstd at h
  dsimp only at h
  split at h
  · next hraw =>
    cases h
    refine ⟨readRepeat_repeatFrame hraw.1 _, ?_, hraw.2⟩
    unfold repeatFrame
    rw [List.append_assoc, List.append_assoc, List.append_assoc]
    exact List.prefix_append _ _
  · cases h

private theorem repeatZstd_documented : repeatZstd.Documented where
  magic raw frame h := (repeatZstd_compress h).2.1
  contentSize raw frame h := by
    show (readRepeat frame).map _ = _
    rw [(repeatZstd_compress h).1]
    rfl
  decompress raw frame decoded h hdecoded := by
    obtain ⟨hread, -, hraw⟩ := repeatZstd_compress h
    have hblock : (readRepeat frame).bind (fun block =>
        if block.1 ≤ raw.length then some (List.replicate block.1 block.2) else none) =
          some decoded := hdecoded
    rw [hread, Option.bind_some, if_pos (Nat.le_refl _)] at hblock
    rw [hraw]
    exact (Option.some.inj hblock).symm
  stream raw frame h := by
    obtain ⟨hread, -, hraw⟩ := repeatZstd_compress h
    show (readRepeat frame).map _ = _
    rw [hread]
    show some (List.replicate raw.length (raw.headD 0), false) = _
    rw [← hraw]
  capacity frame size decoded hdecoded := by
    have hblock : (readRepeat frame).bind (fun block =>
        if block.1 ≤ size then some (List.replicate block.1 block.2) else none) =
          some decoded := hdecoded
    obtain ⟨block, -, hsome⟩ := Option.bind_eq_some_iff.mp hblock
    split at hsome
    · cases hsome
      rwa [List.length_replicate]
    · cases hsome

/-- A text of 600 characters is stored in 17 bytes, and comes back. -/
theorem storedText_survives_sample :
    compressText repeatZstd (List.replicate 600 'a') = repeatFrame 600 0x61 ∧
      tryDecompressText repeatZstd (compressText repeatZstd (List.replicate 600 'a')) =
        .ok (List.replicate 600 'a') :=
  ⟨by decide +kernel,
    (storedText_survives repeatZstd_documented).1 (List.replicate 600 'a') (by decide +kernel)⟩

end Compression

end Ivygrep.Native
