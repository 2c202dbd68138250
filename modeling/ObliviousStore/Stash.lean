/-
  Stashes — the blocks a client holds back, padded with decoys so that their
  number shows nothing.

  A decoy is read off the engine's random bytes like any block off the wire and
  then marked as a dummy.  When the engine fails, the decoys made so far stay.
-/
import ObliviousStore.Block.Codec
import ObliviousStore.Engine.Basic

namespace ObliviousStore

/-- The blocks a client holds back. -/
abbrev Stash (size : Nat) := List (Block size)

/-- The block marked as a dummy. -/
def Block.asDummy {size : Nat} (b : Block size) : Block size :=
  { b with header := { b.header with kind := .dummy } }

namespace Stash

variable {size : Nat} {E : Type}

def drawDecoy [CryptoEngine E] (size : Nat) : Op E (Block size) := do
  let x ← Op.call (CryptoEngine.randomBytes (wireSize size))
  return (← Op.ofExcept (Block.decode size x.toList)).asDummy

def addDecoys [CryptoEngine E] : (n : Nat) → Op (Stash size × E) Unit
  | 0 => pure ()
  | n + 1 => do
    let decoy ← Op.onSnd (drawDecoy size)
    modify fun (stash, e) => (stash ++ [decoy], e)
    addDecoys n

/-- Fills a stash up to `target` blocks. -/
def pad [CryptoEngine E] (target : Nat) : Op (Stash size × E) Unit := do
  let (stash, _) ← get
  if stash.length < target then
    Op.report (.padding stash.length target)
    Op.reserve ((target - stash.length) * wireSize size)
    addDecoys (target - stash.length)

def list {σ : Type} (stash : Stash size) : Op σ Unit := do
  Op.report .stashListed
  stash.forM fun b => Op.report (.stashBlock b.header.id b.header.kind b.data.toList.head?)

end Stash

end ObliviousStore
