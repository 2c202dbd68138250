/-
  What a frame stands for, whatever the bound — `Frame.content?` writes a frame
  out without one, and the bound only decides whether the result is let through
  (`Frame.expand_eq_some`).

  The result is as long as the literals and the matches together
  (`length_content`).
-/
import ObliviousStore.Lz4.Expand

namespace ObliviousStore.Lz4

open Bytes

/-- The number of bytes a sequence stands for. -/
def Sequence.length (s : Sequence) : Nat := s.literals.length + (s.extra + minMatch)

/-- The number of bytes a row of sequences stands for. -/
def totalLength : List Sequence → Nat
  | [] => 0
  | s :: sequences => s.length + totalLength sequences

/-- The output after a sequence, if its match lies within the output. -/
def Sequence.write (out : Array UInt8) (s : Sequence) : Option (Array UInt8) :=
  let out := out ++ s.literals.toArray
  if s.offset ≤ out.size then some (copyBack out s.offset (s.extra + minMatch)) else none

/-- The string a frame stands for, if all its matches lie within the output. -/
def Frame.content? (f : Frame) : Option Bytes :=
  (f.sequences.foldlM Sequence.write #[]).map fun out => out.toList ++ f.tail

/-! ## Sizes -/

theorem size_write {out out' : Array UInt8} {s : Sequence} (h : s.write out = some out') :
    out'.size = out.size + s.length := by
  simp only [Sequence.write] at h
  split at h
  · rw [Option.some.injEq] at h
    subst h
    simp [Sequence.length]
    omega
  · simp at h

theorem size_foldlM_write {sequences : List Sequence} {out out' : Array UInt8}
    (h : sequences.foldlM Sequence.write out = some out') :
    out'.size = out.size + totalLength sequences := by
  induction sequences generalizing out with
  | nil =>
    rw [List.foldlM_nil, Option.pure_def, Option.some.injEq] at h
    rw [h, totalLength, Nat.add_zero]
  | cons s sequences ih =>
    simp only [List.foldlM_cons, Option.bind_eq_bind, Option.bind_eq_some_iff] at h
    obtain ⟨out₁, h₁, h₂⟩ := h
    rw [ih h₂, size_write h₁, totalLength, Nat.add_assoc]

/-- A frame stands for as many bytes as its literals and matches have together. -/
theorem length_content {f : Frame} {x : Bytes} (h : f.content? = some x) :
    x.length = totalLength f.sequences + f.tail.length := by
  simp only [Frame.content?, Option.map_eq_some_iff] at h
  obtain ⟨out, hout, rfl⟩ := h
  have := size_foldlM_write hout
  simp only [List.size_toArray, List.length_nil, Nat.zero_add] at this
  rw [List.length_append, Array.length_toList, this]

/-! ## The bound -/

theorem appendSequence_eq_some {bound : Nat} {out out' : Array UInt8} {s : Sequence} :
    appendSequence bound out s = some out' ↔ s.write out = some out' ∧ out'.size ≤ bound := by
  constructor
  · intro h
    refine ⟨?_, size_appendSequence_le h⟩
    unfold appendSequence at h
    split at h
    · simp at h
    · rename_i out₁ h₁
      rw [appendLiterals_eq_some] at h₁
      obtain ⟨-, rfl⟩ := h₁
      split at h
      · rename_i hb
        rw [← h, Sequence.write, if_pos hb.2]
      · simp at h
  · rintro ⟨h, hb⟩
    have hsize := size_write h
    simp only [Sequence.length] at hsize
    have hl : appendLiterals bound out s.literals = some (out ++ s.literals.toArray) :=
      appendLiterals_eq_some.2 ⟨by omega, rfl⟩
    simp only [Sequence.write] at h
    split at h
    · rename_i ho
      simp only [appendSequence, hl]
      rw [if_pos ⟨by simp only [Array.size_append, List.size_toArray]; omega, ho⟩, h]
    · simp at h

theorem appendSequences_eq_some {bound : Nat} {sequences : List Sequence} {out out' : Array UInt8}
    (hb : out.size ≤ bound) :
    appendSequences bound out sequences = some out' ↔
      sequences.foldlM Sequence.write out = some out' ∧ out'.size ≤ bound := by
  induction sequences generalizing out with
  | nil =>
    simp only [appendSequences, List.foldlM_nil, Option.pure_def, Option.some.injEq]
    constructor
    · rintro rfl; exact ⟨rfl, hb⟩
    · exact And.left
  | cons s sequences ih =>
    simp only [List.foldlM_cons, Option.bind_eq_bind, Option.bind_eq_some_iff]
    constructor
    · intro h
      rw [appendSequences] at h
      split at h
      · simp at h
      · rename_i out₁ h₁
        obtain ⟨hw, hb₁⟩ := appendSequence_eq_some.1 h₁
        obtain ⟨hf, hb'⟩ := (ih hb₁).1 h
        exact ⟨⟨out₁, hw, hf⟩, hb'⟩
    · rintro ⟨⟨out₁, hw, hf⟩, hb'⟩
      -- the output only grows, so what fits in the end fits on the way
      have hb₁ : out₁.size ≤ bound := by have := size_foldlM_write hf; omega
      rw [appendSequences, appendSequence_eq_some.2 ⟨hw, hb₁⟩]
      exact (ih hb₁).2 ⟨hf, hb'⟩

/-- The bound lets through what it has room for and nothing else. -/
theorem Frame.expand_eq_some {bound : Nat} {f : Frame} {x : Bytes} :
    f.expand bound = some x ↔ f.content? = some x ∧ x.length ≤ bound := by
  unfold Frame.expand Frame.content?
  constructor
  · intro h
    split at h
    · simp at h
    · rename_i out ho
      obtain ⟨out', ht, rfl⟩ := Option.map_eq_some_iff.1 h
      obtain ⟨hb, rfl⟩ := appendLiterals_eq_some.1 ht
      obtain ⟨hf, -⟩ := (appendSequences_eq_some (Nat.zero_le bound)).1 ho
      refine ⟨by simp [hf], by simpa using hb⟩
  · rintro ⟨h, hb⟩
    obtain ⟨out, hf, rfl⟩ := Option.map_eq_some_iff.1 h
    rw [List.length_append, Array.length_toList] at hb
    rw [(appendSequences_eq_some (Nat.zero_le bound)).2 ⟨hf, by omega⟩]
    simp only [appendLiterals_eq_some.2 ⟨hb, rfl⟩]
    simp

end ObliviousStore.Lz4
