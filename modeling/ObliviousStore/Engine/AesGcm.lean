/-
  The engine of the library — AES-256 in Galois/counter mode, with its
  randomness from a tape.

  Encryption and decryption draw nothing; random bytes and shuffles draw where
  the last draw ended.
-/
import ObliviousStore.Cipher.Gcm
import ObliviousStore.Engine.Basic

namespace ObliviousStore

/-- An engine with a key and a tape. -/
structure AesGcmEngine where
  key : SecretKey
  tape : Tape

namespace AesGcmEngine

/-- What an engine shows of itself. -/
def text : String := "Aes256GcmEngine \x7b .. \x7d"

/-- The block cipher under the engine's key. -/
def cipher (e : AesGcmEngine) : CipherBlock → CipherBlock := (Aes256.Schedule.ofKey e.key).encrypt

theorem cipher_eq_of_key_eq {e e' : AesGcmEngine} (h : e'.key = e.key) : e'.cipher = e.cipher := by
  rw [cipher, cipher, h]

def draw {α : Type} (d : Tape → Except StoreError α × Tape) : Call AesGcmEngine α := fun e =>
  let (result, tape) := d e.tape
  (result, { e with tape })

instance : CryptoEngine AesGcmEngine where
  randomBytes n := draw (Tape.fill n)
  encrypt iv associated text := fun e => (.ok (Gcm.encrypt e.cipher iv associated text), e)
  decrypt iv associated ciphertext := fun e =>
    match Gcm.decrypt? e.cipher iv associated ciphertext with
    | some text => (.ok text, e)
    | none => (.error .authentication, e)
  shuffle n := draw (drawShuffle n)

end AesGcmEngine

def SecretKey.generate (t : Tape) : Except StoreError SecretKey × Tape :=
  let (result, t) := t.fill keySize
  (result.map SecretKey.mk, t)

end ObliviousStore
