/-
  Engines — what the library asks of cryptography: random bytes, authenticated
  encryption, and shuffles.

  An engine is a state and four calls on it.  A call may fail, and a result of
  encryption or decryption may have any length: nothing is taken on trust that
  the library can check.  A shuffle is asked for by the number of items only,
  so an engine never learns what it permutes.
-/
import ObliviousStore.Op
import ObliviousStore.Random.Shuffle

namespace ObliviousStore

/-- A call to an engine: its result and the engine afterwards. -/
abbrev Call (E α : Type) : Type := E → Except StoreError α × E

/-- The calls an engine answers. -/
class CryptoEngine (E : Type) where
  /-- Draws `n` random bytes. -/
  randomBytes (n : Nat) : Call E (Vector UInt8 n)
  /-- Encrypts a text: its ciphertext followed by the authentication tag. -/
  encrypt (iv : Iv) (associated text : Bytes) : Call E Bytes
  /-- Decrypts a ciphertext followed by its authentication tag. -/
  decrypt (iv : Iv) (associated ciphertext : Bytes) : Call E Bytes
  /-- Draws a permutation of `n` items. -/
  shuffle (n : Nat) : Call E Swaps

/-- A call as an operation on the engine. -/
def Op.call {E α : Type} (c : Call E α) : Op E α := fun e =>
  let (result, e) := c e
  ⟨result, e, []⟩

@[simp] theorem Op.run_call {E α : Type} (c : Call E α) (e : E) :
    (Op.call c).run e = ⟨(c e).1, (c e).2, []⟩ := rfl

end ObliviousStore
