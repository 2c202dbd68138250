/-
  Blocks — the unit of storage.  A block is a header in the clear (identifier,
  type, initialisation vector, authentication tag) and a payload of a fixed
  number of bytes, which is part of its type.

  The type of a block travels as one byte.  Two bytes name the types the
  client knows; every other byte is kept as it is, so that a block written by
  someone else survives being read (`BlockType.tag_ofTag`).  A value
  `unknown 0` or `unknown 1` can be built, but no byte reads back as it
  (`BlockType.ofTag_tag`).
-/
import ObliviousStore.Bytes

namespace ObliviousStore

/-! ## Sizes -/

/-- Bytes of an initialisation vector. -/
abbrev ivSize : Nat := 12

/-- Bytes of an authentication tag. -/
abbrev macTagSize : Nat := 16

/-- Bytes of an encoded header: identifier, type, initialisation vector and tag. -/
abbrev headerSize : Nat := 4 + 1 + ivSize + macTagSize

/-- Bytes of payload in a block of the default size. -/
abbrev defaultDataSize : Nat := 4096

/-- Bytes of an encoded block with `size` bytes of payload. -/
abbrev wireSize (size : Nat) : Nat := headerSize + size

/-- Blocks in a bucket, unless a backend is set up otherwise. -/
abbrev defaultBucketSize : Nat := 4

abbrev Iv := Vector UInt8 ivSize

abbrev MacTag := Vector UInt8 macTagSize

/-- The public name of a block. -/
abbrev BlockId := UInt32

/-! ## Types -/

/-- What a block is there for. -/
inductive BlockType where
  /-- It carries data of the client and is encrypted. -/
  | normal
  /-- It only takes up room. -/
  | dummy
  /-- It was marked with a byte the client has no use for. -/
  | unknown (tag : UInt8)
deriving DecidableEq, Repr

namespace BlockType

/-- The byte that stands for a type. -/
def tag : BlockType → UInt8
  | normal => 0
  | dummy => 1
  | unknown t => t

/-- The type a byte stands for. -/
def ofTag (t : UInt8) : BlockType :=
  if t = 0 then normal else if t = 1 then dummy else unknown t

def text : BlockType → String
  | normal => "Normal"
  | dummy => "Dummy"
  | unknown t => s!"Unknown({t})"

@[simp] theorem tag_ofTag (t : UInt8) : (ofTag t).tag = t := by
  unfold ofTag
  split
  · simp_all [tag]
  · split <;> simp_all [tag]

/-- Reading back a type's byte gives the type, but for the two bytes that
    already name one. -/
theorem ofTag_tag (k : BlockType) : ofTag k.tag = k ↔ k ≠ unknown 0 ∧ k ≠ unknown 1 := by
  cases k with
  | normal => simp [tag, ofTag]
  | dummy => simp [tag, ofTag]
  | unknown t =>
    by_cases h0 : t = 0
    · subst h0; simp [tag, ofTag]
    · by_cases h1 : t = 1
      · subst h1; simp [tag, ofTag]
      · simp [tag, ofTag, h0, h1]

end BlockType

/-! ## Headers and blocks -/

/-- The part of a block that is never encrypted. -/
structure Header where
  id : BlockId
  kind : BlockType
  iv : Iv
  macTag : MacTag
deriving DecidableEq, Repr

structure Block (size : Nat) where
  header : Header
  data : Vector UInt8 size
deriving DecidableEq, Repr

/-- A bucket: blocks that are stored and fetched together. -/
abbrev Bucket (size : Nat) := List (Block size)

/-- The header of a block that was never encrypted. -/
def Header.fresh (id : BlockId) (kind : BlockType) : Header where
  id
  kind
  iv := Vector.replicate ivSize 0
  macTag := Vector.replicate macTagSize 0

/-- The bytes an encryption binds to the payload: the identifier and the type. -/
def Header.associatedData (h : Header) : Bytes := Bytes.littleEndian h.id ++ [h.kind.tag]

namespace Block

variable {size : Nat}

/-- A block that was never encrypted. -/
def new (id : BlockId) (kind : BlockType) (data : Vector UInt8 size) : Block size :=
  ⟨.fresh id kind, data⟩

/-- The block that only takes up room: identifier 0, all zeros. -/
def empty (size : Nat) : Block size := new 0 .dummy (Vector.replicate size 0)

/-- Whether the block carries data of the client. -/
def isNormal (b : Block size) : Bool := b.header.kind == .normal

end Block

end ObliviousStore
