/-
  Storage — keeping packed buckets at addresses, and the accesses built on it.

  A backend says which addresses it has and what it keeps at each
  (`Backend`), and keeps a bucket at one address without touching another;
  storing and fetching, with their errors and their record in the log, are the
  same for every backend.  An access reads a bucket and decrypts it
  (`readPlain`), lets the caller change it, encrypts it again under fresh
  initialisation vectors and writes it back (`writePlain`); the backend changes
  in the last step or not at all.
-/
import ObliviousStore.Block.Sealing
import ObliviousStore.Bucket.Packing

namespace ObliviousStore

/-- The shape of a backend. -/
inductive StorageKind where
  | tree
  | flat
deriving DecidableEq, Repr

def StorageKind.text : StorageKind → String
  | tree => "Tree"
  | flat => "Flat"

/-- What is known of a backend beside its buckets. -/
structure Metadata where
  id : UInt32
  capacity : Nat
  bucketSize : Nat
  instanceHash : String
  kind : StorageKind
deriving DecidableEq, Repr

/-- A place to keep packed buckets, with addresses `A`. -/
class Backend (S : Type) (A : outParam Type) where
  metadata : S → Metadata
  inRange : S → A → Bool
  /-- The bucket kept at an address. -/
  slot : S → A → Option PackedBucket
  /-- Keeps a bucket at an address that the backend has. -/
  put : S → A → PackedBucket → S
  /-- An address as it stands in the log. -/
  location : A → Location
  metadata_put {s : S} {a : A} {p : PackedBucket} : metadata (put s a p) = metadata s
  inRange_put {s : S} {a b : A} {p : PackedBucket} : inRange (put s a p) b = inRange s b
  slot_put_self {s : S} {a : A} {p : PackedBucket} (h : inRange s a) :
    slot (put s a p) a = some p
  slot_put_of_ne {s : S} {a b : A} {p : PackedBucket} (h : b ≠ a) :
    slot (put s a p) b = slot s b
  put_comm {s : S} {a b : A} {p q : PackedBucket} (h : a ≠ b) :
    put (put s a p) b q = put (put s b q) a p

namespace Storage

variable {S A E β : Type} {size : Nat} [Backend S A]

def store (a : A) (p : PackedBucket) : Op S Unit := do
  if Backend.inRange (← get) a then
    Op.report (.physicalWrite (Backend.location S a))
    modify fun s => Backend.put s a p
  else throw .addressOutOfBounds

/-- The bucket last kept at an address. -/
def fetch (a : A) : Op S PackedBucket := do
  let s ← get
  if Backend.inRange s a then
    Op.report (.physicalRead (Backend.location S a))
    match Backend.slot s a with
    | some p => return p
    | none => throw .bucketNotFound
  else throw .addressOutOfBounds

/-- Packs a bucket and keeps it at an address. -/
def write (a : A) (bucket : Bucket size) : Op S Unit := do
  let expected := (Backend.metadata (← get)).bucketSize
  if bucket.length = expected then
    store a (← Op.ofExcept bucket.pack)
  else throw (.invalidBucketLength expected bucket.length)

/-- Fetches the bucket at an address and unpacks it. -/
def read (size : Nat) (a : A) : Op S (Bucket size) := do
  let p ← fetch a
  Op.ofExcept (p.unpack size)

/-- Reads the bucket at an address and decrypts its blocks. -/
def readPlain [CryptoEngine E] (size : Nat) (a : A) : Op (S × E) (Bucket size) := do
  let stored ← Op.onFst (read size a)
  Op.onSnd (Op.within stored (Op.forEach Block.decrypt))

/-- Encrypts the blocks of a bucket and writes it to an address. -/
def writePlain [CryptoEngine E] (a : A) (bucket : Bucket size) : Op (S × E) Unit := do
  let sealed ← Op.onSnd (Op.within bucket (Op.forEach Block.encrypt))
  Op.onFst (write a sealed)

/-- Reads and decrypts the bucket at an address, changes it, and encrypts it and
    writes it back.  The result is what the change returns. -/
def access [CryptoEngine E] (a : A) (change : Bucket size → β × Bucket size) : Op (S × E) β := do
  let plain ← readPlain size a
  let (result, changed) := change plain
  writePlain a changed
  return result

end Storage

end ObliviousStore
