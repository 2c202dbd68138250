/-
  Compression loses nothing — and a bound on the result is only ever a cutoff.

  A compressed string expands to the same bytes under every bound that has room
  for them (`decompress_of_content`).  The form of a frame is hardly longer than
  what the frame stands for, so that its buffer always has room for it
  (`length_encode_le`) and every string is compressed (`compress_eq_ok`).
-/
import ObliviousStore.Compression
import ObliviousStore.Proofs.Lz4.Matching

namespace ObliviousStore

open Bytes Lz4

namespace Lz4

/-! ## How long the form of a frame is -/

theorem length_continued (n : Nat) : (continued n).length = (n + 240) / 255 := by
  unfold continued
  by_cases h : n < 15
  · rw [if_pos h, List.length_nil]
    omega
  · rw [if_neg h, countBytes, List.length_append, List.length_replicate, List.length_singleton]
    omega

/-- The three bytes of a token and a distance are paid for by the match, the
    continued lengths by one in 255 of the bytes they count. -/
theorem length_encode_sequence (s : Sequence) : 255 * s.encode.length ≤ 256 * s.length := by
  have hm : minMatch = 4 := rfl
  simp only [Sequence.encode, Sequence.length, List.length_append, List.length_cons,
    List.length_nil, length_continued]
  omega

theorem length_encodeTail (tail : Bytes) :
    255 * (encodeTail tail).length ≤ 256 * tail.length + 495 := by
  simp only [encodeTail, List.length_append, List.length_cons, length_continued]
  omega

theorem length_encode_sequences (sequences : List Sequence) :
    255 * (sequences.flatMap Sequence.encode).length ≤ 256 * totalLength sequences := by
  induction sequences with
  | nil => simp
  | cons s sequences ih =>
    have := length_encode_sequence s
    rw [List.flatMap_cons, List.length_append, totalLength]
    omega

/-- A frame is written with at most one byte more for each 255 it stands for, and
    two. -/
theorem length_encode_le {f : Frame} {x : Bytes} (h : f.content? = some x) :
    f.encode.length ≤ x.length + x.length / 255 + 2 := by
  have hsequences := length_encode_sequences f.sequences
  have htail := length_encodeTail f.tail
  rw [Frame.encode, List.length_append, length_content h]
  omega

theorem encode_ne_nil (f : Frame) : f.encode ≠ [] := by
  simp [Frame.encode, encodeTail]

end Lz4

/-! ## Compressing -/

theorem length_search_le (x : Bytes) :
    (Frame.search x).encode.length ≤ x.length + x.length / 255 + 2 :=
  length_encode_le (content_search x)

/-- One byte in 255 is less than one in ten. -/
theorem length_search_le_of_room {x : Bytes} {room : Nat}
    (h : compressionBuffer x.length ≤ room) : (Frame.search x).encode.length ≤ room := by
  have hlength := length_search_le x
  rw [compressionBuffer] at h
  omega

/-- Every string is compressed: its form fits the buffer. -/
theorem compress_eq_ok (x : Bytes) : compress x = .ok (Frame.search x).encode := by
  rw [compress, if_neg]
  rintro (hempty | hlong)
  · exact encode_ne_nil _ (List.isEmpty_iff.1 hempty)
  · exact Nat.not_le.2 hlong (length_search_le_of_room (Nat.le_refl _))

theorem PackedBucket.compress_eq_ok (x : Bytes) :
    PackedBucket.compress x = .ok ⟨(Frame.search x).encode, x.length⟩ := by
  rw [PackedBucket.compress, ObliviousStore.compress_eq_ok]
  rfl

/-! ## Decompressing -/

/-- What stands for a string expands to it where the bound has room for it, and
    nowhere else. -/
theorem decompress_of_content {c x : Bytes} {f : Frame} (bound : Nat)
    (hf : Frame.parse c = some f) (hx : f.content? = some x) :
    decompress c bound =
      if maxLength < bound then .error .oversizedBuffer
      else if x ≠ [] ∧ x.length ≤ bound then .ok x
      else .error (.decompression bound) := by
  unfold decompress
  split
  · rfl
  · rw [hf, Option.bind_some]
    split
    · rename_i b rest he
      obtain ⟨hx', hb⟩ := Frame.expand_eq_some.1 he
      rw [hx, Option.some.injEq] at hx'
      subst hx'
      rw [if_pos ⟨List.cons_ne_nil b rest, hb⟩]
    · rename_i he
      rw [if_neg]
      rintro ⟨hne, hb⟩
      obtain ⟨b, rest, rfl⟩ := List.exists_cons_of_ne_nil hne
      exact he b rest (Frame.expand_eq_some.2 ⟨hx, hb⟩)

/-- Decompressing undoes compressing where the bound has room for the string. -/
theorem decompress_search (x : Bytes) (bound : Nat) :
    decompress (Frame.search x).encode bound =
      if maxLength < bound then .error .oversizedBuffer
      else if x ≠ [] ∧ x.length ≤ bound then .ok x
      else .error (.decompression bound) :=
  decompress_of_content bound (Frame.parse_encode (writable_search x)) (content_search x)

/-- **Compression is lossless.**  A string that is not empty comes back from its
    packed form, and from its compressed form alone exactly when the default
    bound has room for it; there is no buffer of more than `maxLength` bytes to
    bring it back into.  The empty string is compressed and does not come back. -/
theorem compress_lossless :
    (∀ x : Bytes, x ≠ [] → ∃ c, compress x = .ok c ∧
      PackedBucket.compress x = .ok ⟨c, x.length⟩ ∧
      PackedBucket.decompress ⟨c, x.length⟩ =
        (if maxLength < x.length then .error .oversizedBuffer else .ok x) ∧
      decompressDefault c =
        (if maxLength < 2 * c.length then .error .oversizedBuffer
         else if x.length ≤ 2 * c.length then .ok x
         else .error (.decompression (2 * c.length))) ∧
      (PackedBucket.ofWire c).decompress = decompressDefault c) ∧
    ∃ c, compress [] = .ok c ∧ decompress c 0 = .error (.decompression 0) := by
  refine ⟨fun x hx => ⟨_, compress_eq_ok x, PackedBucket.compress_eq_ok x, ?_, ?_, rfl⟩,
    _, compress_eq_ok [], ?_⟩
  · rw [PackedBucket.decompress, decompress_search]
    simp only [hx, ne_eq, not_false_eq_true, true_and, Nat.le_refl, if_true]
  · rw [decompressDefault, decompress_search]
    simp only [hx, ne_eq, not_false_eq_true, true_and, defaultBound, decompressionFactor]
  · rw [decompress_search]
    simp

/-- Thirty zeros come back from their packed form. -/
theorem compress_lossless_zeros :
    ∃ c, compress (List.replicate 30 0) = .ok c ∧
      PackedBucket.compress (List.replicate 30 0) = .ok ⟨c, 30⟩ ∧
      PackedBucket.decompress ⟨c, 30⟩ = .ok (List.replicate 30 0) := by
  obtain ⟨c, hc, hpack, hback, -⟩ := compress_lossless.1 (List.replicate 30 0) (by decide)
  exact ⟨c, hc, hpack, hback⟩

end ObliviousStore
