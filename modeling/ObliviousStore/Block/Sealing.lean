/-
  Sealing blocks — encryption and decryption of the payload of a block in
  place.

  Only normal blocks are touched.  Encryption draws a fresh initialisation
  vector first and keeps it whatever happens next; payload and tag change
  together, and only when the engine has returned a result of the right length.
  Decryption changes the payload alone.  The identifier and the type are bound
  to the payload as associated data.
-/
import ObliviousStore.Engine.Basic

namespace ObliviousStore.Block

open Bytes

variable {size : Nat} {E : Type}

def withIv (b : Block size) (iv : Iv) : Block size := { b with header := { b.header with iv } }

/-- The block with a sealed payload: a ciphertext and its tag. -/
def withSealed (b : Block size) (result : Bytes) (h : result.length = size + macTagSize) :
    Block size :=
  { header := { b.header with macTag := slice result size macTagSize (by omega) }
    data := slice result 0 size (by omega) }

def withText (b : Block size) (text : Bytes) (h : text.length = size) : Block size :=
  { b with data := slice text 0 size (by omega) }

/-- The call that encrypts a block's payload. -/
def sealCall [CryptoEngine E] (b : Block size) : Call E Bytes :=
  CryptoEngine.encrypt b.header.iv b.header.associatedData b.data.toList

/-- The call that decrypts a block's payload. -/
def unsealCall [CryptoEngine E] (b : Block size) : Call E Bytes :=
  CryptoEngine.decrypt b.header.iv b.header.associatedData
    (b.data.toList ++ b.header.macTag.toList)

/-- Encrypts a normal block under a fresh initialisation vector. -/
def encrypt [CryptoEngine E] : Op (Block size × E) Unit := do
  let (block, _) ← get
  if block.isNormal then
    let iv ← Op.onSnd (Op.call (CryptoEngine.randomBytes ivSize))
    let block := block.withIv iv
    modify fun (_, e) => (block, e)
    let result ← Op.onSnd (Op.call block.sealCall)
    if h : result.length = size + macTagSize then
      modify fun (_, e) => (block.withSealed result h, e)
    else throw .encryption

def decrypt [CryptoEngine E] : Op (Block size × E) Unit := do
  let (block, _) ← get
  if block.isNormal then
    let text ← Op.onSnd (Op.call block.unsealCall)
    if h : text.length = size then
      modify fun (_, e) => (block.withText text h, e)
    else throw .authentication

end ObliviousStore.Block
