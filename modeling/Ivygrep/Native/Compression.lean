import Ivygrep.Native.Merkle

/-!
# Stored chunk text

`indexer/compression.rs`: the text of a chunk is stored as it is or as one zstd frame. The value
has no tag; a frame is told by its first four bytes. The functions of the `zstd` crate are
parameters.
-/

namespace Ivygrep.Native

namespace Compression

/-- `ZSTD_MAGIC`. -/
def zstdMagic : List UInt8 := [0x28, 0xb5, 0x2f, 0xfd]

def minCompressedTextBytes : Nat := 512

def maxDecompressedTextBytes : Nat := 32 * 1024 * 1024

/-- What is used of the `zstd` crate. `none` is an error, or that the thread has no compressor or
    no decompressor. -/
structure Zstd where
  /-- `bulk::Compressor::compress` at level 1. -/
  compress : List UInt8 → Option (List UInt8)
  /-- `zstd_safe::get_frame_content_size`. The inner `none` is a frame without the size. -/
  getFrameContentSize : List UInt8 → Option (Option Nat)
  findFrameCompressedSize : List UInt8 → Option Nat
  /-- `bulk::Decompressor::decompress_to_buffer`, for a buffer of this capacity. -/
  decompressToBuffer : List UInt8 → Nat → Option (List UInt8)
  /-- `stream::read::Decoder`: the bytes it gives, and whether an error follows them. -/
  stream : List UInt8 → Option (List UInt8 × Bool)

inductive DecompressError where
  | invalidFrame
  | failed
  | tooLarge
  | notUtf8
deriving DecidableEq, Repr

def DecompressError.message : DecompressError → Str
  | .invalidFrame => "invalid zstd frame in stored chunk".toList
  | .failed => "failed to decompress stored chunk".toList
  | .tooLarge => "decompressed stored chunk exceeds 33554432 bytes".toList
  | .notUtf8 => "decompressed stored chunk is not UTF-8".toList

def compressText (zstd : Zstd) (text : Str) : List UInt8 :=
  let raw := Str.bytes text
  if raw.length < minCompressedTextBytes then raw
  else
    ((zstd.compress raw).filter fun compressed => decide (compressed.length < raw.length)).getD raw

def decompressSizedFrame (zstd : Zstd) (raw : List UInt8) : Option (List UInt8) := do
  let contentSize ← (← zstd.getFrameContentSize raw)
  let compressedSize ← zstd.findFrameCompressedSize raw
  if maxDecompressedTextBytes < contentSize ∨ compressedSize ≠ raw.length then none
  else zstd.decompressToBuffer raw contentSize

/-- `decoder.take(limit).read_to_end`. -/
def readToEnd (limit : Nat) (stream : List UInt8 × Bool) : Except DecompressError (List UInt8) :=
  if limit ≤ stream.1.length then .ok (stream.1.take limit)
  else if stream.2 then .error .failed
  else .ok stream.1

def ensureSize (decoded : List UInt8) : Except DecompressError (List UInt8) :=
  if decoded.length ≤ maxDecompressedTextBytes then .ok decoded else .error .tooLarge

def decompressFrameStream (zstd : Zstd) (raw : List UInt8) :
    Except DecompressError (List UInt8) :=
  match zstd.stream raw with
  | none => .error .invalidFrame
  | some stream => (readToEnd (maxDecompressedTextBytes + 1) stream).bind ensureSize

def decompressFrame (zstd : Zstd) (raw : List UInt8) : Except DecompressError (List UInt8) :=
  match decompressSizedFrame zstd raw with
  | some decoded => .ok decoded
  | none => decompressFrameStream zstd raw

def decodedText (decoded : List UInt8) : Except DecompressError Str :=
  match Str.fromUtf8 decoded with
  | some text => .ok text
  | none => .error .notUtf8

def tryDecompressText (zstd : Zstd) (raw : List UInt8) : Except DecompressError Str :=
  if zstdMagic.isPrefixOf raw then (decompressFrame zstd raw).bind decodedText
  else .ok ((Str.fromUtf8 raw).getD (Str.fromUtf8Lossy raw))

/-- `decompress_text`, for callers that cannot fail. -/
def decompressText (zstd : Zstd) (raw : List UInt8) : Str :=
  match tryDecompressText zstd raw with
  | .ok text => text
  | .error error => "[ivygrep: corrupt stored chunk: ".toList ++ error.message ++ "]".toList

end Compression

end Ivygrep.Native
