/-
  Sampled buckets — a bucket of numbered blocks with random payloads, in random
  order, of which the first so many are real.

  The draws and the shuffle are the same whatever the number of real blocks, so
  that nothing but the types tells a real block from a decoy.
-/
import ObliviousStore.Engine.Basic

namespace ObliviousStore.Bucket

variable {E : Type}

/-- The type of the block at place `i` when `real` blocks are real. -/
def sampleKind (real i : Nat) : BlockType := if i < real then .normal else .dummy

/-- A random payload whose first byte is the lowest byte of the identifier. -/
def samplePayload [CryptoEngine E] (id : BlockId) : (size : Nat) → Op E (Vector UInt8 size)
  | 0 => pure #v[]
  | n + 1 => do
    let rest ← Op.call (CryptoEngine.randomBytes n)
    return (#v[id.toUInt8] ++ rest).cast (Nat.add_comm 1 n)

/-- The block at place `i`, numbered from `offset` on. -/
def sampleBlock [CryptoEngine E] (size real offset i : Nat) : Op E (Block size) := do
  if offset + i < UInt32.size then
    let id := UInt32.ofNat (offset + i)
    return Block.new id (sampleKind real i) (← samplePayload id size)
  else throw .integerConversion

/-- Samples a bucket of `count` blocks, numbered from `offset` on, for a store of
    `total` blocks: as many of them are real as are half of the total, if there
    are so many. -/
def sample [CryptoEngine E] (size total count offset : Nat) : Op E (Bucket size) := do
  let real := total / 2
  Op.report (.sampling count offset (min real count))
  Op.reserve (count * wireSize size)
  let blocks ← (List.range count).mapM (sampleBlock size real offset)
  let swaps ← Op.call (CryptoEngine.shuffle count)
  return swaps.apply blocks

end ObliviousStore.Bucket
