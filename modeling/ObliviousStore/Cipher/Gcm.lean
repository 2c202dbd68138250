/-
  Galois/counter mode — authenticated encryption with associated data, over any
  block cipher with blocks of 16 bytes.

  The text is added to a keystream of encrypted counters; the tag is a hash of
  the associated data and the ciphertext in the field of 2^128 elements, itself
  encrypted.  The sealed form of a text is its ciphertext followed by the tag.
  Decryption is the same addition, done only if the tag is the right one
  (`crypt_crypt`).

  The mode is meant for texts of at most `2 ^ 36 - 32` bytes, for which no
  counter comes twice.  That limit is not modelled: a longer text is not refused
  but sealed with the counters it has.
-/
import ObliviousStore.Block.Basic
import ObliviousStore.Cipher.Aes256
import ObliviousStore.Cipher.Galois128

namespace ObliviousStore.Gcm

open Bytes

variable (cipher : CipherBlock → CipherBlock)

/-- The `n`-th counter block of an initialisation vector. -/
def counterBlock (iv : Iv) (n : Nat) : CipherBlock :=
  ⟨(iv.toList ++ bigEndian (UInt32.ofNat n)).toArray, by simp⟩

/-- Encrypted counters, enough for `n` bytes.  The first counter is kept for
    the tag. -/
def keystream (iv : Iv) (n : Nat) : Bytes :=
  (List.range ((n + 15) / 16)).flatMap fun i => (cipher (counterBlock iv (i + 2))).toList

/-- Adds the keystream to a text. -/
def crypt (iv : Iv) (x : Bytes) : Bytes := mask x (keystream cipher iv x.length)

/-- What is hashed: the associated data and the ciphertext, each filled up to
    whole blocks, and their lengths in bits. -/
def hashInput (associated ciphertext : Bytes) : List Galois128.Element :=
  (chunks 16 associated ++ chunks 16 ciphertext).map Galois128.ofBytes ++
    [BitVec.ofNat 64 (8 * associated.length) ++ BitVec.ofNat 64 (8 * ciphertext.length)]

/-- The point the hash is taken at. -/
def hashKey : Galois128.Element := Galois128.ofBytes (cipher (Vector.replicate 16 0)).toList

def tag (iv : Iv) (associated ciphertext : Bytes) : MacTag :=
  Galois128.toBytes
    (Galois128.hash (hashKey cipher) (hashInput associated ciphertext) ^^^
      Galois128.ofBytes (cipher (counterBlock iv 1)).toList)

/-- The sealed form of a text, which should have at most `2 ^ 36 - 32` bytes; a
    longer one is not refused. -/
def encrypt (iv : Iv) (associated text : Bytes) : Bytes :=
  let ciphertext := crypt cipher iv text
  ciphertext ++ (tag cipher iv associated ciphertext).toList

/-- The text with the sealed form `x`, if the tag is right.  As in `encrypt`, the
    length of the text is not checked. -/
def decrypt? (iv : Iv) (associated x : Bytes) : Option Bytes :=
  if macTagSize ≤ x.length then
    let ciphertext := x.take (x.length - macTagSize)
    if x.drop (x.length - macTagSize) = (tag cipher iv associated ciphertext).toList then
      some (crypt cipher iv ciphertext)
    else none
  else none

theorem length_keystream (iv : Iv) (n : Nat) :
    (keystream cipher iv n).length = 16 * ((n + 15) / 16) := by
  simp only [keystream, List.length_flatMap, Vector.length_toList, List.map_const',
    List.length_range, List.sum_replicate_nat, Nat.mul_comm]

@[simp] theorem length_crypt (iv : Iv) (x : Bytes) : (crypt cipher iv x).length = x.length := by
  simp only [crypt, length_mask, length_keystream]
  omega

/-- Adding the keystream twice gives the text back. -/
theorem crypt_crypt (iv : Iv) (x : Bytes) : crypt cipher iv (crypt cipher iv x) = x := by
  rw [crypt, length_crypt, crypt]
  apply mask_mask
  rw [length_keystream]
  omega

end ObliviousStore.Gcm
