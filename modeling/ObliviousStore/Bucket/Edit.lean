/-
  Edits — what a client does to a bucket while it holds it in the clear.

  An edit that names a block, a byte or a bit that is not there changes
  nothing.
-/
import ObliviousStore.Block.Basic
import ObliviousStore.Random.Shuffle

namespace ObliviousStore

/-- A field of bytes within a block. -/
inductive ByteField where
  | data
  | iv
  | macTag
deriving DecidableEq, Repr

/-- A change of a bucket. -/
inductive Edit (size : Nat) where
  | setId (place : Nat) (id : BlockId)
  | setKind (place : Nat) (kind : BlockType)
  /-- Replaces a byte of the payload of the block at a place. -/
  | setByte (place position : Nat) (value : UInt8)
  /-- Turns over one bit of a field of the block at a place, counted from the
      lowest bit of its first byte. -/
  | flip (place : Nat) (field : ByteField) (bit : Nat)
  | swap (place other : Nat)
  | remove (place : Nat)
  | push (block : Block size)
  | pop
  | clear

/-- Turns over one bit of a field. -/
def flipBit {n : Nat} (field : Vector UInt8 n) (bit : Nat) : Vector UInt8 n :=
  if h : bit / 8 < n then
    field.set (bit / 8) (field[bit / 8] ^^^ ((1 : UInt8) <<< UInt8.ofNat (bit % 8)))
  else field

namespace Block

variable {size : Nat}

def flip (b : Block size) (bit : Nat) : ByteField → Block size
  | .data => { b with data := flipBit b.data bit }
  | .iv => { b with header := { b.header with iv := flipBit b.header.iv bit } }
  | .macTag => { b with header := { b.header with macTag := flipBit b.header.macTag bit } }

end Block

namespace Edit

variable {size : Nat}

def apply (bucket : Bucket size) : Edit size → Bucket size
  | setId place id => bucket.modify place fun b => { b with header := { b.header with id } }
  | setKind place kind => bucket.modify place fun b => { b with header := { b.header with kind } }
  | setByte place position value =>
    bucket.modify place fun b => { b with data := b.data.setIfInBounds position value }
  | flip place field bit => bucket.modify place fun b => b.flip bit field
  | swap place other => Swaps.apply [(place, other)] bucket
  | remove place => bucket.eraseIdx place
  | push block => bucket ++ [block]
  | pop => bucket.dropLast
  | clear => []

/-- The bucket after edits in order. -/
def applyAll (edits : List (Edit size)) (bucket : Bucket size) : Bucket size :=
  edits.foldl apply bucket

end Edit

end ObliviousStore
