/-
  Random tapes — an endless string of random bytes and how far it has been
  read.

  Every draw takes the next bytes, so what is drawn from position `p` on
  depends on `p` alone and nothing is drawn twice.  A tape may have a limit: a
  fill that would pass it takes nothing and fails, while words can always be
  drawn.
-/
import ObliviousStore.Bytes
import ObliviousStore.Error

namespace ObliviousStore

structure Tape where
  byte : Nat → UInt8
  /-- The position that no fill passes, if there is one. -/
  limit : Option Nat
  /-- The number of bytes drawn so far. -/
  position : Nat

namespace Tape

/-- The bytes of the tape from position `p` on. -/
def interval (t : Tape) (p n : Nat) : Vector UInt8 n := Vector.ofFn fun i => t.byte (p + i.val)

/-- The tape after `n` more bytes were drawn. -/
def advance (t : Tape) (n : Nat) : Tape := { t with position := t.position + n }

/-- Whether a fill of `n` bytes stays within the limit. -/
def admits (t : Tape) (n : Nat) : Bool :=
  match t.limit with
  | none => true
  | some limit => t.position + n ≤ limit

theorem admits_of_limit_eq_none {t : Tape} (h : t.limit = none) (n : Nat) : t.admits n := by
  rw [admits, h]

/-- Draws `n` bytes, within the limit. -/
def fill (n : Nat) (t : Tape) : Except StoreError (Vector UInt8 n) × Tape :=
  if t.admits n then (.ok (t.interval t.position n), t.advance n) else (.error .randomness, t)

/-- Draws a word, lowest byte first, whatever the limit. -/
def word (t : Tape) : UInt32 × Tape :=
  (Bytes.ofLittleEndian (t.interval t.position 4).toList, t.advance 4)

end Tape

end ObliviousStore
