/-
  Why an operation failed — one constructor per cause, with the numbers its
  report names, and the report itself.

  Twelve of the causes are answers a caller can act on.  The last two end the
  caller's program: a buffer no address space can hold (`oversizedBuffer`) and
  a generator that cannot fill a block outright (`exhaustedGenerator`).
-/
namespace ObliviousStore

/-- The cause of a failed operation. -/
inductive StoreError where
  /-- A byte string is not as long as the block or bucket it should hold. -/
  | invalidSize (expected actual : Nat)
  /-- A bucket to be written does not hold the backend's number of blocks. -/
  | invalidBucketLength (expected actual : Nat)
  /-- The engine drew no random bytes. -/
  | randomness
  /-- The engine encrypted nothing, or returned a result of the wrong length. -/
  | encryption
  /-- The engine refused a ciphertext, or returned a result of the wrong length. -/
  | authentication
  /-- The engine did not permute a bucket. -/
  | shuffle
  /-- A byte string does not fit its compression buffer. -/
  | compression
  /-- A byte string does not expand to between one and `bound` bytes. -/
  | decompression (bound : Nat)
  /-- The address lies outside the backend. -/
  | addressOutOfBounds
  /-- Nothing was ever stored at the address. -/
  | bucketNotFound
  /-- The parameters of a backend or the text of a key are not acceptable. -/
  | invalidConfiguration
  /-- A number does not fit a 32-bit identifier. -/
  | integerConversion
  /-- A buffer of more bytes than can be addressed was asked for. -/
  | oversizedBuffer
  /-- The random generator ran out while it filled a block. -/
  | exhaustedGenerator
deriving DecidableEq, Repr

def StoreError.message : StoreError → String
  | invalidSize expected actual => s!"Invalid block size: expected {expected} bytes, got {actual}"
  | invalidBucketLength expected actual =>
    s!"Invalid bucket length: expected {expected} blocks, got {actual}"
  | randomness => "Failed to generate random bytes"
  | encryption => "Failed to encrypt data"
  | authentication => "Failed to decrypt data: authentication failed"
  | shuffle => "Random shuffle failed"
  | compression => "Failed to compress data"
  | decompression bound => s!"Failed to decompress data within {bound} bytes"
  | addressOutOfBounds => "Address out of bounds"
  | bucketNotFound => "No bucket stored at the requested address"
  | invalidConfiguration => "Invalid configuration"
  | integerConversion => "Arithmetic error encountered"
  | oversizedBuffer => "capacity overflow"
  | exhaustedGenerator => "Rng::fill failed"

end ObliviousStore
