/-
  Unpacking undoes packing — the blocks of a bucket come back in order, each as
  it is read back from its wire form (`unpack_pack`).

  The wire forms have one length, so that cutting their concatenation into
  pieces of that length finds them again (`chunks_flatMap`).

  Packing itself never fails, since there is always room for what compression
  makes of a string (`compression_fits_buffer`).
-/
import ObliviousStore.Bucket.Packing
import ObliviousStore.Proofs.Block.Codec
import ObliviousStore.Proofs.Compression

namespace ObliviousStore

open Bytes Lz4

variable {size : Nat}

/-! ## Cutting a concatenation -/

theorem Bytes.chunks_append {n : Nat} {c : Bytes} (hn : n ≠ 0) (hc : c.length = n) (x : Bytes) :
    chunks n (c ++ x) = c :: chunks n x := by
  have hne : ¬(n = 0 ∨ c ++ x = []) := by
    rintro (h | h)
    · exact hn h
    · rw [List.append_eq_nil_iff] at h
      exact hn (by rw [← hc, h.1, List.length_nil])
  rw [chunks, if_neg hne, List.take_left' hc, List.drop_left' hc]

theorem Bytes.chunks_flatMap {α : Type} {n : Nat} {f : α → Bytes} (hn : n ≠ 0)
    (hf : ∀ a, (f a).length = n) (as : List α) : chunks n (as.flatMap f) = as.map f := by
  induction as with
  | nil => rw [List.flatMap_nil, chunks, if_pos (.inr rfl), List.map_nil]
  | cons a as ih => rw [List.flatMap_cons, chunks_append hn (hf a), ih, List.map_cons]

/-! ## Wire forms of buckets -/

theorem wireSize_ne_zero (size : Nat) : wireSize size ≠ 0 := by
  simp only [wireSize, headerSize]
  omega

theorem Bucket.length_encode (bucket : Bucket size) :
    (Bucket.encode bucket).length = bucket.length * wireSize size := by
  simp only [Bucket.encode, List.length_flatMap, Block.length_encode, List.map_const',
    List.sum_replicate_nat]

theorem Block.decodeAll_encodeAll (bucket : Bucket size) :
    decodeAll size (encodeAll bucket) = .ok (bucket.map canonical) := by
  induction bucket with
  | nil => rfl
  | cons b bucket ih =>
    simp only [decodeAll, encodeAll, List.map_cons, List.mapM_cons, decode_encode] at ih ⊢
    rw [ih]
    rfl

theorem Bucket.decode_encode (bucket : Bucket size) :
    Bucket.decode size (Bucket.encode bucket) = .ok (bucket.map Block.canonical) := by
  rw [Bucket.decode, if_pos (by rw [Bucket.length_encode, Nat.mul_mod_left]), Bucket.encode,
    chunks_flatMap (wireSize_ne_zero size) Block.length_encode]
  exact Block.decodeAll_encodeAll bucket

theorem Bucket.encode_ne_nil {bucket : Bucket size} (h : bucket ≠ []) :
    Bucket.encode bucket ≠ [] := by
  intro he
  have hlength := Bucket.length_encode bucket
  rw [he, List.length_nil, eq_comm, Nat.mul_eq_zero, List.length_eq_zero_iff] at hlength
  rcases hlength with hb | hw
  · exact h hb
  · exact wireSize_ne_zero size hw

theorem Bucket.encode_map_canonical (bucket : Bucket size) :
    Bucket.encode (bucket.map Block.canonical) = Bucket.encode bucket := by
  simp only [Bucket.encode, List.flatMap_map, Block.encode_canonical]

/-! ## Packing -/

theorem Bucket.pack_eq_ok (bucket : Bucket size) :
    Bucket.pack bucket =
      .ok ⟨(Frame.search (Bucket.encode bucket)).encode, bucket.length * wireSize size⟩ := by
  rw [Bucket.pack_eq_compress, PackedBucket.compress_eq_ok, Bucket.length_encode]

theorem Bucket.pack_map_canonical (bucket : Bucket size) :
    Bucket.pack (bucket.map Block.canonical) = Bucket.pack bucket := by
  rw [Bucket.pack_eq_compress, encode_map_canonical, Bucket.pack_eq_compress]

/-- **Compression never fails and hardly expands.**  Of every string, also of the empty one, it
    makes one that is not empty and has at most one byte more for each 255, and sixteen.
    Any buffer of a tenth more than the string and twenty bytes has room for it, so that
    neither check of the result refuses it; and every bucket is packed. -/
theorem compression_fits_buffer :
    (∀ x : Bytes,
      let c := (Frame.search x).encode
      compress x = .ok c ∧ PackedBucket.compress x = .ok ⟨c, x.length⟩ ∧
        c ≠ [] ∧ c.length ≤ x.length + x.length / 255 + 16 ∧
        ∀ room, 20 + x.length * 110 / 100 ≤ room → c.length ≤ room) ∧
    ∀ (size : Nat) (bucket : Bucket size), ∃ p, Bucket.pack bucket = .ok p ∧
      p.uncompressedLength = bucket.length * wireSize size ∧ p.bytes ≠ [] ∧
      p.bytes.length ≤ p.uncompressedLength + p.uncompressedLength / 255 + 16 := by
  constructor
  · intro x c
    have hlength : c.length ≤ x.length + x.length / 255 + 2 := length_search_le x
    exact ⟨compress_eq_ok x, PackedBucket.compress_eq_ok x, encode_ne_nil _, by omega,
      fun room hroom => length_search_le_of_room hroom⟩
  · intro size bucket
    have hlength := length_search_le (Bucket.encode bucket)
    rw [Bucket.length_encode] at hlength
    exact ⟨_, Bucket.pack_eq_ok bucket, rfl, encode_ne_nil _,
      Nat.le_trans hlength (Nat.add_le_add_left (by decide) _)⟩

/-- Every byte once, in a buffer of three hundred and one. -/
theorem compression_fits_buffer_every_byte :
    let x : Bytes := (List.range 256).map UInt8.ofNat
    20 + x.length * 110 / 100 ≤ 301 ∧
      ∃ c, compress x = .ok c ∧ c ≠ [] ∧ c.length ≤ 273 ∧ c.length ≤ 301 := by
  intro x
  have hx : x.length = 256 := by rw [List.length_map, List.length_range]
  have hroom : 20 + x.length * 110 / 100 ≤ 301 := by omega
  obtain ⟨hok, -, hne, hlength, hfits⟩ := compression_fits_buffer.1 x
  rw [hx] at hlength
  exact ⟨hroom, _, hok, hne, hlength, hfits 301 hroom⟩

/-- Unpacking undoes packing, for a bucket whose wire form a buffer has room for. -/
theorem PackedBucket.unpack_pack {bucket : Bucket size} {p : PackedBucket} (hne : bucket ≠ [])
    (hfit : bucket.length * wireSize size ≤ maxLength) (hp : Bucket.pack bucket = .ok p) :
    p.unpack size = .ok (bucket.map Block.canonical) := by
  rw [Bucket.pack_eq_ok, Except.ok.injEq] at hp
  subst hp
  have hd : PackedBucket.decompress ⟨(Frame.search (Bucket.encode bucket)).encode,
      bucket.length * wireSize size⟩ = .ok (Bucket.encode bucket) := by
    rw [PackedBucket.decompress, decompress_search, if_neg (Nat.not_lt.2 hfit),
      if_pos ⟨Bucket.encode_ne_nil hne, Nat.le_of_eq (Bucket.length_encode bucket)⟩]
  rw [PackedBucket.unpack, hd]
  exact Bucket.decode_encode bucket

end ObliviousStore
