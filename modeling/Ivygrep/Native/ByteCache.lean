import Ivygrep.ForStd.LruCache
import Ivygrep.Native.Str
import Ivygrep.Native.Usize

/-!
# Byte-bounded caches

`ByteCache` of `byte_cache.rs` and `FileContentCache` of `search_file_cache.rs`. An operation
returns `none` when its arithmetic leaves `usize` or its eviction loop does not end.
-/

namespace Ivygrep.Native

open ForStd

/-! ## `ByteCache` -/

/-- The values carry their own costs. -/
structure ByteCache (K V : Type) [DecidableEq K] where
  entries : LruCache K (V × Nat)
  bytes : Nat
  maxBytes : Nat

namespace ByteCache

variable {K V : Type} [DecidableEq K] (cache : ByteCache K V)

def new (maxEntries : Nat) (hentries : 0 < maxEntries) (maxBytes : Nat) : ByteCache K V :=
  ⟨.new maxEntries hentries, 0, maxBytes⟩

def get (key : K) : ByteCache K V × Option V :=
  ({ cache with entries := (cache.entries.get key).1 }, (cache.entries.get key).2.map Prod.fst)

def fits (bytes : Nat) : Bool := bytes ≤ cache.maxBytes

def remove (key : K) : Option (ByteCache K V) :=
  match cache.entries.pop key with
  | (_, none) => some cache
  | (entries, some removed) =>
    (checkedSub cache.bytes removed.2).map fun bytes =>
      { cache with entries := entries, bytes := bytes }

/-- The loop of `insert`, where `bytes` is the cost of the new entry and `fuel` the number of
    entries: it does not end on an empty map. -/
def evict (bytes fuel : Nat) (cache : ByteCache K V) : Option (ByteCache K V) :=
  (checkedSub cache.maxBytes bytes).bind fun limit =>
    if cache.bytes ≤ limit then some cache
    else
      match fuel with
      | 0 => none
      | fuel + 1 =>
        match cache.entries.popLru with
        | (_, none) => none
        | (entries, some removed) =>
          (checkedSub cache.bytes removed.2.2).bind fun left =>
            evict bytes fuel { cache with entries := entries, bytes := left }

/-- What `insert` does once there is room. -/
def add (key : K) (value : V) (bytes : Nat) : Option (ByteCache K V) :=
  match cache.entries.push key (value, bytes) with
  | (entries, none) =>
    (checkedAdd cache.bytes bytes).map fun total =>
      { cache with entries := entries, bytes := total }
  | (entries, some removed) =>
    (checkedSub cache.bytes removed.2.2).bind fun left =>
      (checkedAdd left bytes).map fun total =>
        { cache with entries := entries, bytes := total }

def insert (key : K) (value : V) (bytes : Nat) : Option (ByteCache K V) :=
  (cache.remove key).bind fun cache =>
    if !cache.fits bytes then some cache
    else (cache.evict bytes cache.entries.entries.length).bind fun cache =>
      cache.add key value bytes

end ByteCache

/-- A call of a cache. -/
inductive ByteCacheCall (K V : Type) where
  | get (key : K)
  | insert (key : K) (value : V) (bytes : Nat)
  | remove (key : K)

def ByteCache.call {K V : Type} [DecidableEq K] (cache : ByteCache K V)
    (call : ByteCacheCall K V) : Option (ByteCache K V) :=
  match call with
  | .get key => some (cache.get key).1
  | .insert key value bytes => cache.insert key value bytes
  | .remove key => cache.remove key

/-! ## `FileContentCache` -/

/-- The start and the end of a line. -/
structure LineSpan where
  start : Nat
  «end» : Nat

/-- A file with what is kept of it. `Stamp` is the metadata that tells its versions apart. -/
structure CachedFileContent (Stamp : Type) where
  stamp : Stamp
  indexEpoch : UInt64
  content : Str
  lines : List LineSpan

/-- The sizes of a `LineSpan` and of a `CachedFileContent`. -/
structure CachedSizes where
  lineSpan : Nat
  content : Nat

/-- `line_spans`, from a place in a line, where `previous` is the byte before it. -/
def lineSpansFrom (start index : Nat) (previous : Option UInt8) (bytes : List UInt8) :
    List LineSpan :=
  match bytes with
  | [] => if start < index then [⟨start, index⟩] else []
  | byte :: rest =>
    if byte ≠ 10 then lineSpansFrom start (index + 1) (some byte) rest
    else
      ⟨start, if index > start ∧ previous = some 13 then index - 1 else index⟩ ::
        lineSpansFrom (index + 1) (index + 1) (some byte) rest

/-- `CachedFileContent::bytes`, where `path` is the text of the path. -/
def CachedFileContent.bytes {Stamp : Type} (sizes : CachedSizes)
    (content : CachedFileContent Stamp) (path : Str) : Nat :=
  content.content.len + sizes.lineSpan * content.lines.length + path.len + sizes.content

structure FileContentCache (Stamp : Type) where
  entries : LruCache Str (CachedFileContent Stamp)
  bytes : Nat
  maxBytes : Nat

namespace FileContentCache

variable {Stamp : Type} (sizes : CachedSizes) (cache : FileContentCache Stamp)

def maxCachedFiles : Nat := 256

def maxCachedBytes : Nat := 64 * 1024 * 1024

def new (maxFiles : Nat) (hfiles : 0 < maxFiles) (maxBytes : Nat) : FileContentCache Stamp :=
  ⟨.new maxFiles hfiles, 0, maxBytes⟩

/-- The cache that all readers share. -/
def shared : FileContentCache Stamp := new maxCachedFiles (by decide) maxCachedBytes

def remove (path : Str) : Option (FileContentCache Stamp) :=
  match cache.entries.pop path with
  | (_, none) => some cache
  | (entries, some content) =>
    (checkedSub cache.bytes (content.bytes sizes path)).map fun bytes =>
      { cache with entries := entries, bytes := bytes }

/-- The loop of `insert`, with the number of entries as fuel. -/
def evict (fuel : Nat) (cache : FileContentCache Stamp) : Option (FileContentCache Stamp) :=
  if cache.bytes ≤ cache.maxBytes then some cache
  else
    match fuel with
    | 0 => none
    | fuel + 1 =>
      match cache.entries.popLru with
      | (_, none) => none
      | (entries, some removed) =>
        (checkedSub cache.bytes (removed.2.bytes sizes removed.1)).bind fun left =>
          evict fuel { cache with entries := entries, bytes := left }

def insert (path : Str) (content : CachedFileContent Stamp) : Option (FileContentCache Stamp) :=
  (cache.remove sizes path).bind fun cache =>
    let bytes := content.bytes sizes path
    if bytes > cache.maxBytes then some cache
    else (checkedAdd cache.bytes bytes).bind fun total =>
      match cache.entries.push path content with
      | (entries, none) =>
        evict sizes entries.entries.length { cache with entries := entries, bytes := total }
      | (entries, some removed) =>
        (checkedSub total (removed.2.bytes sizes removed.1)).bind fun left =>
          evict sizes entries.entries.length { cache with entries := entries, bytes := left }

/-- The part of `read` under the lock, once the file is open: the content that is current, or
    the cache without the path. -/
def lookup [DecidableEq Stamp] (path : Str) (stamp : Stamp) (indexEpoch : UInt64) :
    Option (FileContentCache Stamp × Option (CachedFileContent Stamp)) :=
  let used := { cache with entries := (cache.entries.get path).1 }
  match (cache.entries.get path).2 with
  | some content =>
    if content.indexEpoch = indexEpoch ∧ content.stamp = stamp then some (used, some content)
    else (used.remove sizes path).map fun cache => (cache, none)
  | none => (used.remove sizes path).map fun cache => (cache, none)

end FileContentCache

/-- What a reader finds: the file cannot be opened, its metadata cannot be read, or it has a
    stamp and, unless reading it fails, a content. -/
inductive FileRead (Stamp : Type) where
  | notOpened
  | noMetadata
  | opened (stamp : Stamp) (content : Option Str)

/-- What the cache does under its lock. The sizes of a content to insert are those of live
    objects, so their sum is in the address space. -/
inductive FileCacheCall (sizes : CachedSizes) (Stamp : Type) where
  | remove (path : Str)
  | lookup (path : Str) (stamp : Stamp) (indexEpoch : UInt64)
  | insert (path : Str) (content : CachedFileContent Stamp)
      (hlive : content.bytes sizes path ≤ usizeMax)

namespace FileContentCache

variable {Stamp : Type} [DecidableEq Stamp] (sizes : CachedSizes) (cache : FileContentCache Stamp)

def call (call : FileCacheCall sizes Stamp) : Option (FileContentCache Stamp) :=
  match call with
  | .remove path => cache.remove sizes path
  | .lookup path stamp indexEpoch =>
    (cache.lookup sizes path stamp indexEpoch).map Prod.fst
  | .insert path content _ => cache.insert sizes path content

/-- `read`, when no other reader comes between. -/
def read (path : Str) (indexEpoch : UInt64) (file : FileRead Stamp) :
    Option (FileContentCache Stamp × Option (CachedFileContent Stamp)) :=
  match file with
  | .notOpened => (cache.remove sizes path).map fun cache => (cache, none)
  | .noMetadata => some (cache, none)
  | .opened stamp content =>
    (cache.lookup sizes path stamp indexEpoch).bind fun found =>
      match found.2, content with
      | some current, _ => some (found.1, some current)
      | none, none => some (found.1, none)
      | none, some text =>
        let read := ⟨stamp, indexEpoch, text, lineSpansFrom 0 0 none (Str.bytes text)⟩
        (found.1.insert sizes path read).map fun cache => (cache, some read)

end FileContentCache

end Ivygrep.Native
