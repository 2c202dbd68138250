/-
  What an LZ4 frame stands for — its literals and matches written out, within a
  bound on the output.

  A match copies bytes of the output one at a time, so that it may reach into
  the bytes it is writing (`copyBack`).  The bound is only ever compared with
  the size the output is about to have; `size_copyBack` and
  `size_appendSequence_le` are the facts behind "the output never exceeds it".
-/
import ObliviousStore.Lz4.Format

namespace ObliviousStore.Lz4

open Bytes

/-- Copies `n` bytes from `offset` bytes back, one at a time. -/
def copyBack (out : Array UInt8) (offset : Nat) : (n : Nat) → Array UInt8
  | 0 => out
  | n + 1 => copyBack (out.push (out.getD (out.size - offset) 0)) offset n

/-- Appends a run of literals, if it fits. -/
def appendLiterals (bound : Nat) (out : Array UInt8) (literals : Bytes) : Option (Array UInt8) :=
  if out.size + literals.length ≤ bound then some (literals.foldl Array.push out) else none

/-- Appends a sequence, if it fits and its match lies within the output. -/
def appendSequence (bound : Nat) (out : Array UInt8) (s : Sequence) : Option (Array UInt8) :=
  match appendLiterals bound out s.literals with
  | none => none
  | some out =>
    if out.size + (s.extra + minMatch) ≤ bound ∧ s.offset ≤ out.size then
      some (copyBack out s.offset (s.extra + minMatch))
    else none

def appendSequences (bound : Nat) (out : Array UInt8) : List Sequence → Option (Array UInt8)
  | [] => some out
  | s :: rest =>
    match appendSequence bound out s with
    | none => none
    | some out => appendSequences bound out rest

/-- The string a frame stands for, if it has at most `bound` bytes. -/
def Frame.expand (bound : Nat) (f : Frame) : Option Bytes :=
  match appendSequences bound #[] f.sequences with
  | none => none
  | some out => (appendLiterals bound out f.tail).map Array.toList

@[simp] theorem size_copyBack (out : Array UInt8) (offset n : Nat) :
    (copyBack out offset n).size = out.size + n := by
  induction n generalizing out with
  | zero => rfl
  | succ n ih => simp [copyBack, ih]; omega

theorem appendLiterals_eq_some {bound : Nat} {out out' : Array UInt8} {literals : Bytes} :
    appendLiterals bound out literals = some out' ↔
      out.size + literals.length ≤ bound ∧ out' = out ++ literals.toArray := by
  unfold appendLiterals
  have : literals.foldl Array.push out = out ++ literals.toArray := by
    apply Array.ext'
    simp
  rw [this, eq_comm (a := out')]
  split
  · simp_all
  · simp only [reduceCtorEq, false_iff, not_and]
    omega

theorem size_appendSequence_le {bound : Nat} {out out' : Array UInt8} {s : Sequence}
    (h : appendSequence bound out s = some out') : out'.size ≤ bound := by
  unfold appendSequence at h
  split at h
  · simp at h
  · split at h
    · rename_i hb
      simp only [Option.some.injEq] at h
      simp [← h, hb.1]
    · simp at h

end ObliviousStore.Lz4
