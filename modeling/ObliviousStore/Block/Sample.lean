/-
  Random blocks — a block drawn whole from a tape.
-/
import ObliviousStore.Block.Basic
import ObliviousStore.Random.Tape

namespace ObliviousStore.Block

/-- Draws a normal block: its identifier and then its payload.  A tape that
    cannot fill the payload is at its end for good. -/
def sample (size : Nat) (t : Tape) : Except StoreError (Block size) × Tape :=
  let (id, t) := t.word
  match t.fill size with
  | (.ok data, t) => (.ok (new id .normal data), t)
  | (.error _, t) => (.error .exhaustedGenerator, t)

end ObliviousStore.Block
