/-
  Finding matches — the greedy search that turns a string into an LZ4 frame.

  The search keeps a table of 4096 positions, indexed by a hash of the bytes at
  a position, and looks at one earlier position for each later one.  Where it
  finds no match it walks on in steps that grow with the number of misses;
  where it finds one, the match is extended to both sides and the search goes
  on behind it.  Which matches are found depends on the table, on the two hash
  functions and on the step; that they are matches does not: every candidate is
  compared with the bytes it should repeat.

  The last twelve bytes never start a match and the last six never belong to
  one.
-/
import ObliviousStore.Lz4.Format

namespace ObliviousStore.Lz4

/-! ## Bytes of the input -/

/-- The number whose `n` base-256 digits stand at position `p`, lowest first. -/
def readLittleEndian (d : Array UInt8) (p : Nat) : (n : Nat) → UInt64
  | 0 => 0
  | n + 1 => (d.getD p 0).toUInt64 ||| (readLittleEndian d (p + 1) n <<< 8)

/-- Whether the same four bytes stand at two positions. -/
def sameFour (d : Array UInt8) (p q : Nat) : Bool :=
  d.getD p 0 == d.getD q 0 && d.getD (p + 1) 0 == d.getD (q + 1) 0 &&
    d.getD (p + 2) 0 == d.getD (q + 2) 0 && d.getD (p + 3) 0 == d.getD (q + 3) 0

/-! ## The table of positions -/

abbrev tableSize : Nat := 4096

/-- A string shorter than this is indexed by four bytes, a longer one by five. -/
abbrev longInput : Nat := 65535

/-- The greatest distance a match can reach back. -/
abbrev maxOffset : Nat := 65535

/-- The entry of the table for a position: the upper twelve bits of the bytes
    there, four or five of them, times a constant that mixes them. -/
def bucketOf (d : Array UInt8) (p : Nat) : Nat :=
  if d.size < longInput then
    (((readLittleEndian d p 4).toUInt32 * 2654435761) >>> 20).toNat
  else
    (((readLittleEndian d p 8 <<< 24) * 889523592379) >>> 52).toNat

/-- Earlier positions, by the hash of the bytes there. -/
abbrev Table := Array Nat

def Table.remember (t : Table) (d : Array UInt8) (p : Nat) : Table :=
  t.setIfInBounds (bucketOf d p) p

/-! ## Matches -/

/-- The step after so many misses in a row: it grows by one every 32 misses. -/
def stride (misses : Nat) : Nat := 1 + misses / 32

/-- The next position, from `p` on, with an earlier one that starts a match:
    both positions and the table as it then is. -/
def findMatch (d : Array UInt8) (t : Table) (misses p : Nat) : Option (Nat × Nat × Table) :=
  if p + 12 ≤ d.size then
    let earlier := t.getD (bucketOf d p) 0
    let t := t.remember d p
    if earlier < p ∧ p - earlier ≤ maxOffset ∧ sameFour d earlier p then some (p, earlier, t)
    else findMatch d t (misses + 1) (p + stride misses)
  else none
termination_by d.size - p
decreasing_by
  have : 1 ≤ stride misses := Nat.le_add_right 1 _
  omega

/-- Moves `p` and `q` back together over equal bytes, at most `room` steps, and
    returns where `p` ends. -/
def extendBack (d : Array UInt8) (p q : Nat) : (room : Nat) → Nat
  | 0 => p
  | room + 1 =>
    if d.getD (p - 1) 0 == d.getD (q - 1) 0 then extendBack d (p - 1) (q - 1) room else p

/-- Moves `p` and `q` on together over equal bytes, at most `room` steps, and
    returns where `p` ends. -/
def extendOn (d : Array UInt8) (p q : Nat) : (room : Nat) → Nat
  | 0 => p
  | room + 1 => if d.getD p 0 == d.getD q 0 then extendOn d (p + 1) (q + 1) room else p

theorem findMatch_bound {d : Array UInt8} {t t' : Table} {misses p q c : Nat}
    (h : findMatch d t misses p = some (q, c, t')) :
    q + 12 ≤ d.size ∧ p ≤ q ∧ c < q ∧ q - c ≤ maxOffset ∧ sameFour d c q := by
  fun_induction findMatch d t misses p with
  | case1 t misses p hp earlier t₁ hm =>
    simp only [Option.some.injEq, Prod.mk.injEq] at h
    obtain ⟨rfl, rfl, -⟩ := h
    exact ⟨hp, Nat.le_refl _, hm⟩
  | case2 t misses p hp earlier t₁ hm ih =>
    obtain ⟨h₁, h₂, h₃⟩ := ih h
    exact ⟨h₁, by omega, h₃⟩
  | case3 => simp at h

theorem extendBack_bound (d : Array UInt8) (p q room : Nat) :
    p - room ≤ extendBack d p q room ∧ extendBack d p q room ≤ p := by
  induction room generalizing p q with
  | zero => simp [extendBack]
  | succ room ih =>
    unfold extendBack
    split
    · have := ih (p - 1) (q - 1); omega
    · omega

theorem extendOn_bound (d : Array UInt8) (p q room : Nat) :
    p ≤ extendOn d p q room ∧ extendOn d p q room ≤ p + room := by
  induction room generalizing p q with
  | zero => simp [extendOn]
  | succ room ih =>
    unfold extendOn
    split
    · have := ih (p + 1) (q + 1); omega
    · omega

/-! ## Frames -/

/-- The sequence of the match of position `p` with position `q`, after the
    literals from position `start` on, and where the match ends. -/
def sequenceAt (d : Array UInt8) (start p q : Nat) : Sequence × Nat :=
  let first := extendBack d p q (min q (p - start))
  let offset := p - q
  let shortest := first + minMatch
  let stop := extendOn d shortest (shortest - offset) (d.size - 6 - shortest)
  (⟨(d.extract start first).toList, offset, stop - shortest⟩, stop)

theorem lt_sequenceAt (d : Array UInt8) {start p q : Nat} (h : start ≤ p) :
    start < (sequenceAt d start p q).2 := by
  have h₁ := (extendBack_bound d p q (min q (p - start))).1
  have h₂ := (extendOn_bound d (extendBack d p q (min q (p - start)) + minMatch)
    (extendBack d p q (min q (p - start)) + minMatch - (p - q))
    (d.size - 6 - (extendBack d p q (min q (p - start)) + minMatch))).1
  have : minMatch = 4 := rfl
  simp only [sequenceAt]
  omega

/-- The frame of the input from position `start` on, searched from position `p`
    on, after the sequences `done`, which are kept last first. -/
def searchFrom (d : Array UInt8) (t : Table) (done : List Sequence) (start p : Nat)
    (_ : start ≤ p) : Frame :=
  match _ : findMatch d t 0 p with
  | none => ⟨done.reverse, (d.extract start d.size).toList⟩
  | some (p', q, t) =>
    let found := sequenceAt d start p' q
    searchFrom d (t.remember d (found.2 - 2)) (found.1 :: done) found.2 found.2 (Nat.le_refl _)
termination_by d.size - start
decreasing_by
  have h₁ := findMatch_bound ‹_›
  have h₂ := lt_sequenceAt d (q := q) (Nat.le_trans ‹start ≤ p› h₁.2.1)
  omega

def Frame.search (x : Bytes) : Frame :=
  let d := x.toArray
  if d.size < 13 then ⟨[], x⟩
  else searchFrom d (Table.remember (Array.replicate tableSize 0) d 0) [] 0 1 (by decide)

end ObliviousStore.Lz4
