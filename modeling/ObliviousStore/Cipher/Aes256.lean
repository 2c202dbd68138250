/-
  AES with a key of 256 bits, in the direction of encryption, which is the only
  one that counter mode needs.

  A block is read column by column: byte `4 * c + r` stands in column `c` and
  row `r`.  The substitution table is computed from its definition, the inverse
  in the field of 256 elements followed by an affine map.
-/
import ObliviousStore.SecretKey

namespace ObliviousStore

/-- Sixteen bytes, as a block cipher takes and returns them. -/
abbrev CipherBlock := Vector UInt8 16

namespace Aes256

/-! ## The field of 256 elements -/

/-- The product with `x` modulo `x^8 + x^4 + x^3 + x + 1`. -/
def double (a : UInt8) : UInt8 := (a <<< 1) ^^^ (if a < 128 then 0 else 0x1b)

/-- The product of two elements, from the coefficients of the first, lowest
    first. -/
def mul (a b : UInt8) : UInt8 :=
  (List.range 8).foldr
    (fun i product => double product ^^^ (if a.toNat.testBit i then b else 0)) 0

/-- The inverse of an element, and 0 for 0: the power with exponent 254. -/
def inverse (a : UInt8) : UInt8 := (List.replicate 254 a).foldl mul 1

/-! ## Substitution -/

/-- The affine map of the substitution. -/
def affine (a : UInt8) : UInt8 :=
  let turned (k : UInt8) := (a <<< k) ||| (a >>> (8 - k))
  a ^^^ turned 1 ^^^ turned 2 ^^^ turned 3 ^^^ turned 4 ^^^ 0x63

/-- The substitution, written out. -/
def substitution : Vector UInt8 256 := Vector.ofFn fun i => affine (inverse (UInt8.ofNat i.val))

def substitute (a : UInt8) : UInt8 := substitution.get a.toFin

/-! ## Rounds -/

/-- The byte in a column and a row, both counted around. -/
def cell (s : CipherBlock) (column row : Nat) : UInt8 :=
  s.get ⟨4 * (column % 4) + row % 4, by omega⟩

/-- Moves row `r` by `r` columns. -/
def shiftRows (s : CipherBlock) : CipherBlock :=
  Vector.ofFn fun i => cell s (i.val / 4 + i.val % 4) i.val

/-- Mixes the four bytes of each column. -/
def mixColumns (s : CipherBlock) : CipherBlock :=
  Vector.ofFn fun i =>
    let byte := cell s (i.val / 4)
    let a := byte i.val
    let b := byte (i.val + 1)
    double a ^^^ double b ^^^ b ^^^ byte (i.val + 2) ^^^ byte (i.val + 3)

def addKey (s k : CipherBlock) : CipherBlock := Vector.zipWith (· ^^^ ·) s k

/-- The last round, which does not mix the columns. -/
def lastRound (s k : CipherBlock) : CipherBlock := addKey (shiftRows (s.map substitute)) k

/-- A round before the last. -/
def round (s k : CipherBlock) : CipherBlock :=
  addKey (mixColumns (shiftRows (s.map substitute))) k

/-! ## Round keys -/

/-- A column of a round key. -/
abbrev Word := Vector UInt8 4

/-- The constant that marks the `k`-th pass over the key. -/
def roundConstant (k : Nat) : Word := #v[UInt8.ofNat (1 <<< (k - 1)), 0, 0, 0]

/-- Appends the next word of the expanded key. -/
def expandOnce (words : Array Word) : Array Word :=
  let n := words.size
  let add (x y : Word) : Word := Vector.zipWith (· ^^^ ·) x y
  let last := words.getD (n - 1) #v[0, 0, 0, 0]
  let mixed :=
    if n % 8 = 0 then
      add (#v[last[1], last[2], last[3], last[0]].map substitute) (roundConstant (n / 8))
    else if n % 8 = 4 then last.map substitute
    else last
  words.push (add (words.getD (n - 8) #v[0, 0, 0, 0]) mixed)

/-- The expanded key: one round key before the first round and one for each of
    the fourteen rounds. -/
structure Schedule where
  first : CipherBlock
  middle : List CipherBlock
  last : CipherBlock

def Schedule.ofKey (key : SecretKey) : Schedule :=
  let start : Array Word := Array.ofFn fun (c : Fin 8) =>
    Vector.ofFn fun (r : Fin 4) => key.bytes.get ⟨4 * c.val + r.val, by unfold keySize; omega⟩
  let words := Nat.repeat expandOnce 52 start
  let roundKey (k : Nat) : CipherBlock := Vector.ofFn fun i =>
    (words.getD (4 * k + i.val / 4) #v[0, 0, 0, 0]).get ⟨i.val % 4, by omega⟩
  ⟨roundKey 0, (List.range' 1 13).map roundKey, roundKey 14⟩

/-- The cipher: one block encrypted under an expanded key. -/
def Schedule.encrypt (k : Schedule) (block : CipherBlock) : CipherBlock :=
  lastRound (k.middle.foldl round (addKey block k.first)) k.last

end Aes256

end ObliviousStore
