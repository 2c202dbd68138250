/-
  Packed buckets — the wire forms of the blocks of a bucket, one after the
  other, compressed.

  The blocks are written to one buffer, which then holds the wire form of the
  bucket and nothing else (`Bucket.pack_eq_compress`).

  Unpacking takes whatever expands within the recorded length and is cut into
  blocks without remainder; a remainder is reported with the next length that
  has none.
-/
import ObliviousStore.Block.Codec
import ObliviousStore.Compression

namespace ObliviousStore

variable {size : Nat}

/-- The wire form of a bucket. -/
def Bucket.encode (bucket : Bucket size) : Bytes := bucket.flatMap Block.encode

/-- Writes the blocks of a bucket to the end of a buffer, one after the other. -/
def Bucket.encodeInto (buffer : Array UInt8) (bucket : Bucket size) : Array UInt8 :=
  bucket.foldl Block.encodeInto buffer

def Bucket.decode (size : Nat) (x : Bytes) : Except StoreError (Bucket size) :=
  if x.length % wireSize size = 0 then Block.decodeAll size (Bytes.chunks (wireSize size) x)
  else .error (.invalidSize ((x.length / wireSize size + 1) * wireSize size) x.length)

def Bucket.pack (bucket : Bucket size) : Except StoreError PackedBucket :=
  PackedBucket.compress (Bucket.encodeInto #[] bucket).toList

/-- Unpacks a bucket of blocks with `size` bytes of payload. -/
def PackedBucket.unpack (size : Nat) (p : PackedBucket) : Except StoreError (Bucket size) := do
  Bucket.decode size (← p.decompress)

theorem Bucket.toList_encodeInto (buffer : Array UInt8) (bucket : Bucket size) :
    (Bucket.encodeInto buffer bucket).toList = buffer.toList ++ Bucket.encode bucket := by
  unfold Bucket.encodeInto Bucket.encode
  induction bucket generalizing buffer with
  | nil => rw [List.foldl_nil, List.flatMap_nil, List.append_nil]
  | cons b bucket ih =>
    rw [List.foldl_cons, ih, Block.toList_encodeInto, List.append_assoc, List.flatMap_cons]

/-- What is compressed is the wire form of the bucket. -/
theorem Bucket.pack_eq_compress (bucket : Bucket size) :
    Bucket.pack bucket = PackedBucket.compress bucket.encode := by
  rw [Bucket.pack, Bucket.toList_encodeInto, List.nil_append]

end ObliviousStore
