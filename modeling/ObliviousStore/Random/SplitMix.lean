/-
  SplitMix64 — a generator whose `k`-th output is a function of its seed and of
  `k`, and the tape of its outputs.
-/
import ObliviousStore.Random.Tape

namespace ObliviousStore.SplitMix

/-- The distance between two states. -/
def step : UInt64 := 0x9E3779B97F4A7C15

/-- Scatters the bits of a state. -/
def scatter (state : UInt64) : UInt64 :=
  let z := (state ^^^ (state >>> 30)) * 0xBF58476D1CE4E5B9
  let z := (z ^^^ (z >>> 27)) * 0x94D049BB133111EB
  z ^^^ (z >>> 31)

/-- The `k`-th output from a seed. -/
def output (seed : UInt64) (k : Nat) : UInt64 := scatter (seed + UInt64.ofNat (k + 1) * step)

/-- The `i`-th byte of the outputs from a seed, each lowest byte first. -/
def byte (seed : UInt64) (i : Nat) : UInt8 :=
  (output seed (i / 8) >>> UInt64.ofNat (8 * (i % 8))).toUInt8

/-- The tape that starts with `leading` and goes on with the outputs from a
    seed. -/
def tape (seed : UInt64) (leading : Array UInt8) (limit : Option Nat) : Tape where
  byte i := if h : i < leading.size then leading[i] else byte seed (i - leading.size)
  limit
  position := 0

end ObliviousStore.SplitMix
