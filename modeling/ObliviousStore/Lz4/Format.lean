/-
  The LZ4 block format — a compressed string is a list of sequences, each a run
  of literal bytes followed by a match, and a last run of literals without one.

  A match is a distance back into the output and a length of at least four.
  Run and match lengths share one byte, four bits each; a field of 15 goes on
  in further bytes, up to and including the first that is not 255
  (`takeCount_countBytes`).

  * `Frame` is a compressed string taken apart, `Frame.encode` writes it and
    `Frame.parse` reads it;
  * what a frame stands for is said in `Lz4.Expand`.
-/
import ObliviousStore.Bytes

namespace ObliviousStore.Lz4

open Bytes

abbrev minMatch : Nat := 4

/-- A run of literals and the match after it. -/
structure Sequence where
  literals : Bytes
  /-- How far back the match starts; never 0. -/
  offset : Nat
  /-- How many bytes the match has beyond the shortest one. -/
  extra : Nat
deriving DecidableEq, Repr

/-- A compressed string, taken apart. -/
structure Frame where
  sequences : List Sequence
  /-- The literals after the last match. -/
  tail : Bytes
deriving DecidableEq, Repr

/-! ## Writing -/

/-- The value of a length field of four bits. -/
def nibble (n : Nat) : Nat := min n 15

/-- The bytes that continue a length field: a run of 255 and a smaller last one. -/
def countBytes (n : Nat) : Bytes := List.replicate (n / 255) 255 ++ [UInt8.ofNat (n % 255)]

/-- What follows the token for a length: nothing below 15. -/
def continued (n : Nat) : Bytes := if n < 15 then [] else countBytes (n - 15)

/-- The token: the length of a run in the high half, that of a match in the low. -/
def token (literals extra : Nat) : UInt8 := UInt8.ofNat (16 * nibble literals + nibble extra)

def Sequence.encode (s : Sequence) : Bytes :=
  token s.literals.length s.extra :: continued s.literals.length ++ s.literals ++
    [UInt8.ofNat s.offset, UInt8.ofNat (s.offset / 256)] ++ continued s.extra

def encodeTail (literals : Bytes) : Bytes :=
  token literals.length 0 :: continued literals.length ++ literals

/-- The compressed string a frame stands for. -/
def Frame.encode (f : Frame) : Bytes := f.sequences.flatMap Sequence.encode ++ encodeTail f.tail

/-! ## Reading -/

/-- Reads the continuation of a length field, added to `n`. -/
def takeCount (n : Nat) : Bytes → Option (Nat × Bytes)
  | [] => none
  | b :: rest => if b = 255 then takeCount (n + 255) rest else some (n + b.toNat, rest)

/-- Reads a length whose first four bits are `field`. -/
def takeLength (field : Nat) (x : Bytes) : Option (Nat × Bytes) :=
  if field = 15 then takeCount 15 x else some (field, x)

/-- The first `n` bytes and the rest, if there are that many. -/
def takeExactly (n : Nat) (x : Bytes) : Option (Bytes × Bytes) :=
  let taken := x.take n
  if taken.length = n then some (taken, x.drop n) else none

/-- The next part of a compressed string. -/
inductive Piece where
  | last (literals : Bytes)
  /-- A sequence and what is left after it. -/
  | sequence (s : Sequence) (rest : Bytes)

/-- Reads the match after a run of literals. -/
def takeMatch (literals : Bytes) (field : Nat) : Bytes → Option Piece
  | low :: high :: rest =>
    let offset := low.toNat + 256 * high.toNat
    if offset = 0 then none
    else (takeLength field rest).map fun (extra, rest) =>
      .sequence ⟨literals, offset, extra⟩ rest
  | _ => none

/-- Reads the next part.  A string that ends with a run of literals ends there,
    whatever the token says of a match. -/
def takePiece : Bytes → Option Piece
  | [] => none
  | t :: rest => do
    let (length, rest) ← takeLength (t.toNat / 16) rest
    let (literals, rest) ← takeExactly length rest
    if rest.isEmpty then return .last literals
    takeMatch literals (t.toNat % 16) rest

/-- Reading undoes writing a continued length. -/
theorem takeCount_countBytes (m n : Nat) (rest : Bytes) :
    takeCount m (countBytes n ++ rest) = some (m + n, rest) := by
  suffices ∀ k m, takeCount m (List.replicate k 255 ++ UInt8.ofNat (n % 255) :: rest) =
      some (m + 255 * k + n % 255, rest) by
    have := this (n / 255) m
    simp only [countBytes, List.append_assoc, List.cons_append, List.nil_append, this]
    rw [Nat.add_assoc, Nat.div_add_mod]
  intro k
  induction k with
  | zero =>
    intro m
    have hn : n % 255 < 256 := by omega
    have : UInt8.ofNat (n % 255) ≠ 255 := by
      rw [Ne, ← UInt8.toNat_inj, UInt8.toNat_ofNat', Nat.mod_eq_of_lt hn]
      simp only [UInt8.reduceToNat]
      omega
    simp [takeCount, this, Nat.mod_eq_of_lt hn]
  | succ k ih =>
    intro m
    simp only [List.replicate_succ, List.cons_append, takeCount, if_true, ih]
    congr 2
    omega

theorem takeCount_length_lt {n m : Nat} {x rest : Bytes} (h : takeCount n x = some (m, rest)) :
    rest.length < x.length := by
  induction x generalizing n with
  | nil => simp [takeCount] at h
  | cons b x ih =>
    simp only [takeCount] at h
    split at h
    · have := ih h; simp; omega
    · simp only [Option.some.injEq, Prod.mk.injEq] at h
      simp [← h.2]

theorem takeLength_length_le {field m : Nat} {x rest : Bytes}
    (h : takeLength field x = some (m, rest)) : rest.length ≤ x.length := by
  unfold takeLength at h
  split at h
  · exact Nat.le_of_lt (takeCount_length_lt h)
  · simp only [Option.some.injEq, Prod.mk.injEq] at h
    simp [h.2]

theorem takeExactly_eq_some {n : Nat} {x taken rest : Bytes}
    (h : takeExactly n x = some (taken, rest)) : taken.length = n ∧ x = taken ++ rest := by
  unfold takeExactly at h
  simp only at h
  split at h
  · rename_i hl
    simp only [Option.some.injEq, Prod.mk.injEq] at h
    obtain ⟨rfl, rfl⟩ := h
    exact ⟨hl, (List.take_append_drop n x).symm⟩
  · simp at h

theorem takeMatch_length_lt {literals x rest : Bytes} {field : Nat} {s : Sequence}
    (h : takeMatch literals field x = some (.sequence s rest)) : rest.length < x.length := by
  match x with
  | [] | [_] => simp [takeMatch] at h
  | low :: high :: x =>
    simp only [takeMatch] at h
    split at h
    · simp at h
    · obtain ⟨⟨m, r⟩, hr, he⟩ := Option.map_eq_some_iff.1 h
      have := takeLength_length_le hr
      simp only [Piece.sequence.injEq] at he
      simp [← he.2]; omega

/-- A sequence takes at least one byte. -/
theorem takePiece_length_lt {x rest : Bytes} {s : Sequence}
    (h : takePiece x = some (.sequence s rest)) : rest.length < x.length := by
  match x with
  | [] => simp [takePiece] at h
  | t :: x =>
    simp only [takePiece, Option.bind_eq_bind, Option.bind_eq_some_iff, Prod.exists] at h
    obtain ⟨m, r₁, h₁, l, r₂, h₂, h₃⟩ := h
    have e₁ := takeLength_length_le h₁
    obtain ⟨-, rfl⟩ := takeExactly_eq_some h₂
    split at h₃
    · simp at h₃
    · have := takeMatch_length_lt h₃
      simp at e₁ ⊢; omega

/-- Takes a string apart after the sequences `done`, which are kept last first. -/
def parseAfter (done : List Sequence) (x : Bytes) : Option Frame :=
  match _ : takePiece x with
  | none => none
  | some (.last literals) => some ⟨done.reverse, literals⟩
  | some (.sequence s rest) => parseAfter (s :: done) rest
termination_by x.length
decreasing_by exact takePiece_length_lt ‹_›

/-- Takes a compressed string apart, if it is one. -/
def Frame.parse (x : Bytes) : Option Frame := parseAfter [] x

end ObliviousStore.Lz4
