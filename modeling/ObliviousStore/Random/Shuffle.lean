/-
  Shuffles — permutations as lists of swaps, and drawing one uniformly.

  A number below `r` is drawn by multiplying a random word with `r` and keeping
  the upper half of the product; the words whose lower half lies beyond `zone r`
  are rejected, which leaves equally many for every result.  A shuffle of `n`
  items swaps each position, from the last down to the second, with one drawn
  at or before it.

  All of this is about words of 32 bits, and so about fewer than `2 ^ 32` items:
  more of them would be shuffled by wider words, which are not modelled.
-/
import ObliviousStore.Random.Tape

namespace ObliviousStore

/-! ## Swaps -/

/-- Pairs of positions that are swapped in order. -/
abbrev Swaps := List (Nat × Nat)

/-- The list after the swaps; a pair with a position outside it changes
    nothing. -/
def Swaps.apply {α : Type} (swaps : Swaps) (items : List α) : List α :=
  (swaps.foldl (fun a (i, j) => a.swapIfInBounds i j) items.toArray).toList

@[simp] theorem Swaps.length_apply {α : Type} (swaps : Swaps) (items : List α) :
    (swaps.apply items).length = items.length := by
  suffices ∀ a : Array α, (swaps.foldl (fun a (i, j) => a.swapIfInBounds i j) a).size = a.size by
    simp [Swaps.apply, this]
  induction swaps with
  | nil => simp
  | cons s swaps ih => intro a; simp [ih]

/-! ## Numbers below a bound -/

/-- The lower halves that are accepted for a range `r`: as many as the greatest
    product of `r` and a power of two within 32 bits. -/
def zone (r : Nat) : Nat := r <<< (31 - r.log2)

/-- The number below `r` that a word stands for, unless it is rejected; `r` is
    below `2 ^ 32`. -/
def accept? (r : Nat) (word : UInt32) : Option Nat :=
  let product := word.toNat * r
  if product % UInt32.size < zone r then some (product / UInt32.size) else none

/-- How many words are drawn for one number before giving up.  At least every
    other word is accepted, so that no tape of random bytes comes near it.  A
    drawing that runs out of patience stands for one that has not ended: the
    failure is not one that a shuffle reports. -/
def patience : Nat := 1 <<< 62

/-- Draws words until one is accepted, at most `attempts` of them. -/
def drawBelow (r : Nat) : (attempts : Nat) → Tape → Option Nat × Tape
  | 0, t => (none, t)
  | attempts + 1, t =>
    let (word, t) := t.word
    match accept? r word with
    | some j => (some j, t)
    | none => drawBelow r attempts t

/-! ## Shuffles -/

/-- Draws the swaps of positions `i` down to 1, for `i + 1` items and fewer than
    `2 ^ 32`.  It fails only where the drawing of a number would not have ended
    within `patience`. -/
def drawSwaps : (i : Nat) → Tape → Except StoreError Swaps × Tape
  | 0, t => (.ok [], t)
  | i + 1, t =>
    match drawBelow (i + 2) patience t with
    | (none, t) => (.error .shuffle, t)
    | (some j, t) =>
      match drawSwaps i t with
      | (.error e, t) => (.error e, t)
      | (.ok swaps, t) => (.ok ((i + 1, j) :: swaps), t)

def drawShuffle (n : Nat) (t : Tape) : Except StoreError Swaps × Tape := drawSwaps (n - 1) t

end ObliviousStore
