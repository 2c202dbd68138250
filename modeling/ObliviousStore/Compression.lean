/-
  Compression — byte strings and buckets in LZ4 form.

  Decompression is told how long its result may be.  A compressed bucket
  remembers that length; a compressed string that arrives without it is given
  twice its own length (`defaultBound`).  An empty result counts as a failure,
  so that an empty bucket can be packed but not unpacked.
-/
import ObliviousStore.Error
import ObliviousStore.Lz4.Expand
import ObliviousStore.Lz4.Search

namespace ObliviousStore

open Lz4

/-- How many times its own length a compressed string expands to, at most,
    unless more is known. -/
def decompressionFactor : Nat := 2

/-- The most bytes a string without a recorded length expands to. -/
def defaultBound (compressed : Bytes) : Nat := decompressionFactor * compressed.length

/-- The bytes set aside for the compressed form of `n` bytes. -/
def compressionBuffer (n : Nat) : Nat := 16 + 4 + n * 110 / 100

def compress (x : Bytes) : Except StoreError Bytes :=
  let compressed := (Frame.search x).encode
  if compressed.isEmpty ∨ compressionBuffer x.length < compressed.length then .error .compression
  else .ok compressed

/-- The string with the compressed form `x`, which has between one and `bound`
    bytes. -/
def decompress (x : Bytes) (bound : Nat) : Except StoreError Bytes :=
  if Bytes.maxLength < bound then .error .oversizedBuffer
  else
    match (Frame.parse x).bind (Frame.expand bound) with
    | some (b :: rest) => .ok (b :: rest)
    | _ => .error (.decompression bound)

/-- The string with the compressed form `x`, of at most the default length. -/
def decompressDefault (x : Bytes) : Except StoreError Bytes := decompress x (defaultBound x)

/-- A bucket in the form in which it is stored. -/
structure PackedBucket where
  bytes : Bytes
  /-- The most bytes they expand to. -/
  uncompressedLength : Nat
deriving DecidableEq, Repr

namespace PackedBucket

def compress (x : Bytes) : Except StoreError PackedBucket :=
  (ObliviousStore.compress x).map fun bytes => ⟨bytes, x.length⟩

/-- A compressed string that arrived without its length. -/
def ofWire (bytes : Bytes) : PackedBucket := ⟨bytes, defaultBound bytes⟩

def decompress (p : PackedBucket) : Except StoreError Bytes :=
  ObliviousStore.decompress p.bytes p.uncompressedLength

end PackedBucket

end ObliviousStore
