/-
  The packed form of a bucket, read in both directions (`packed_form_two_way`).

  What was packed comes back, each block as it is read back from its wire form.
  And whatever bytes a packed bucket was given, unpacking takes exactly those that
  expand to wire forms without remainder, drops nothing of them, and says what is
  wrong with all others.
-/
import Mathlib.Order.Bounds.Basic
import ObliviousStore.Proofs.Bucket.Packing

namespace ObliviousStore

open Bytes Lz4

variable {size : Nat}

/-! ## Cutting without remainder -/

theorem Bytes.length_eq_of_mem_chunks {n : Nat} {x c : Bytes} (hn : n ∣ x.length)
    (hc : c ∈ chunks n x) : c.length = n := by
  fun_induction chunks n x with
  | case1 => simp at hc
  | case2 x hx ih =>
    have hle : n ≤ x.length :=
      Nat.le_of_dvd (Nat.pos_of_ne_zero fun e => hx (.inr (List.length_eq_zero_iff.1 e))) hn
    rcases List.mem_cons.1 hc with rfl | hc
    · rw [List.length_take, Nat.min_eq_left hle]
    · refine ih ?_ hc
      rw [List.length_drop]
      exact Nat.dvd_sub hn (Nat.dvd_refl n)

theorem Block.exists_decodeAll {encoded : List Bytes} (h : ∀ c ∈ encoded, c.length = wireSize size) :
    ∃ bucket : Bucket size, decodeAll size encoded = .ok bucket ∧ encodeAll bucket = encoded := by
  induction encoded with
  | nil => exact ⟨[], rfl, rfl⟩
  | cons c encoded ih =>
    obtain ⟨hc, hrest⟩ := List.forall_mem_cons.1 h
    obtain ⟨bucket, hbucket, hencode⟩ := ih hrest
    refine ⟨ofWire c hc :: bucket, ?_, ?_⟩
    · simp only [decodeAll, List.mapM_cons, decode_eq_ok hc] at hbucket ⊢
      rw [hbucket]
      rfl
    · simp only [encodeAll, List.map_cons, encode_ofWire] at hencode ⊢
      rw [hencode]

theorem Bucket.exists_decode {x : Bytes} (h : wireSize size ∣ x.length) :
    ∃ bucket : Bucket size, Bucket.decode size x = .ok bucket ∧ Bucket.encode bucket = x := by
  have hchunks : ∀ c ∈ chunks (wireSize size) x, c.length = wireSize size :=
    fun _ hc => length_eq_of_mem_chunks h hc
  obtain ⟨bucket, hbucket, hencode⟩ := Block.exists_decodeAll hchunks
  refine ⟨bucket, ?_, ?_⟩
  · rw [Bucket.decode, if_pos (Nat.mod_eq_zero_of_dvd h), hbucket]
  · rw [Bucket.encode, List.flatMap_def, ← Block.encodeAll, hencode,
      flatten_chunks (wireSize_ne_zero size)]

theorem Bucket.decode_of_not_dvd {x : Bytes} (h : ¬wireSize size ∣ x.length) :
    Bucket.decode size x =
      .error (.invalidSize ((x.length / wireSize size + 1) * wireSize size) x.length) := by
  rw [Bucket.decode, if_neg fun hmod => h (Nat.dvd_of_mod_eq_zero hmod)]

theorem isLeast_multiple_above {n : Nat} (hn : n ≠ 0) (k : Nat) :
    IsLeast {m | n ∣ m ∧ k < m} ((k / n + 1) * n) := by
  refine ⟨⟨Nat.dvd_mul_left n _, ?_⟩, ?_⟩
  · rw [Nat.mul_comm]
    exact Nat.lt_mul_div_succ k (Nat.pos_of_ne_zero hn)
  · rintro m ⟨⟨c, rfl⟩, hk⟩
    have hc : k / n < c := Nat.div_lt_of_lt_mul hk
    rw [Nat.mul_comm n c]
    exact Nat.mul_le_mul_right n hc

/-! ## Expanding -/

theorem decompress_ne_nil {c x : Bytes} {bound : Nat} (h : decompress c bound = .ok x) : x ≠ [] := by
  unfold decompress at h
  split at h
  · exact absurd h (by simp)
  · split at h
    · rw [Except.ok.injEq] at h
      rw [← h]
      exact List.cons_ne_nil _ _
    · exact absurd h (by simp)

/-- Under a bound that a buffer has room for, there is one way to fail. -/
theorem eq_decompression_of_decompress {c : Bytes} {bound : Nat} {err : StoreError}
    (hb : bound ≤ maxLength) (h : decompress c bound = .error err) : err = .decompression bound := by
  unfold decompress at h
  rw [if_neg (Nat.not_lt.2 hb)] at h
  split at h
  · exact absurd h (by simp)
  · exact (Except.error.inj h).symm

/-! ## Unpacking -/

theorem Bucket.map_canonical_eq_self_iff {bucket : Bucket size} :
    bucket.map Block.canonical = bucket ↔ ∀ b ∈ bucket, b.header.kind.Canonical := by
  calc bucket.map Block.canonical = bucket
      ↔ bucket.map Block.canonical = bucket.map id := by rw [List.map_id]
    _ ↔ ∀ b ∈ bucket, b.canonical = id b := List.map_inj_left
    _ ↔ ∀ b ∈ bucket, b.header.kind.Canonical := by
      simp only [id_eq, Block.canonical_eq_self_iff]

namespace PackedBucket

variable {p : PackedBucket} {x : Bytes} {bucket : Bucket size} {err : StoreError}

theorem unpack_of_decompress (h : p.decompress = .ok x) : p.unpack size = Bucket.decode size x := by
  rw [unpack, h]
  rfl

theorem unpack_of_decompress_error (h : p.decompress = .error err) :
    p.unpack size = .error err := by
  rw [unpack, h]
  rfl

/-- What is unpacked is what the packed bytes expand to, all of it. -/
theorem encode_of_unpack (hx : p.decompress = .ok x) (h : p.unpack size = .ok bucket) :
    Bucket.encode bucket = x := by
  rw [unpack_of_decompress hx] at h
  by_cases hd : wireSize size ∣ x.length
  · obtain ⟨bucket', hbucket', rfl⟩ := Bucket.exists_decode hd
    rw [hbucket', Except.ok.injEq] at h
    rw [h]
  · rw [Bucket.decode_of_not_dvd hd] at h
    exact absurd h (by simp)

theorem exists_unpack_iff :
    (∃ bucket, p.unpack size = .ok bucket) ↔ ∃ x, p.decompress = .ok x ∧ wireSize size ∣ x.length := by
  constructor
  · rintro ⟨bucket, h⟩
    cases hx : p.decompress with
    | error err =>
      rw [unpack_of_decompress_error hx] at h
      exact absurd h (by simp)
    | ok x =>
      refine ⟨x, rfl, ?_⟩
      rw [← encode_of_unpack hx h, Bucket.length_encode]
      exact Nat.dvd_mul_left _ _
  · rintro ⟨x, hx, hd⟩
    obtain ⟨bucket, hbucket, -⟩ := Bucket.exists_decode hd
    exact ⟨bucket, (unpack_of_decompress hx).trans hbucket⟩

theorem length_of_unpack (hx : p.decompress = .ok x) (h : p.unpack size = .ok bucket) :
    bucket.length = x.length / wireSize size ∧ 1 ≤ bucket.length := by
  have hencode := encode_of_unpack hx h
  constructor
  · rw [← hencode, Bucket.length_encode,
      Nat.mul_div_cancel _ (Nat.pos_of_ne_zero (wireSize_ne_zero size))]
  · refine Nat.one_le_iff_ne_zero.2 fun h0 => decompress_ne_nil hx ?_
    rw [← hencode, List.length_eq_zero_iff.1 h0]
    rfl

theorem unpack_pack_eq_ok_iff (hne : bucket ≠ []) (hfit : bucket.length * wireSize size ≤ maxLength)
    (hp : Bucket.pack bucket = .ok p) :
    p.unpack size = .ok bucket ↔ ∀ b ∈ bucket, b.header.kind.Canonical := by
  rw [unpack_pack hne hfit hp, Except.ok.injEq]
  exact Bucket.map_canonical_eq_self_iff

theorem decompress_pack (hp : Bucket.pack bucket = .ok p) :
    p.decompress =
      if maxLength < bucket.length * wireSize size then .error .oversizedBuffer
      else if bucket ≠ [] then .ok (Bucket.encode bucket) else .error (.decompression 0) := by
  rw [Bucket.pack_eq_ok, Except.ok.injEq] at hp
  subst hp
  rw [decompress, decompress_search, Bucket.length_encode]
  by_cases hne : bucket = []
  · simp [hne, Bucket.encode]
  · simp [hne, Bucket.encode_ne_nil hne]

end PackedBucket

/-- **The packed form of a bucket is exact in both directions.**  A bucket that is
    not empty comes back block by block, each as its wire form is read back, and
    thus comes back as it was exactly if all its types are; there is no buffer of
    more than `maxLength` bytes to bring it back into.  The empty bucket does not
    come back.  From whatever bytes, as long as a buffer has room for the recorded
    length, exactly the strings without a remainder are unpacked, to blocks whose
    wire forms are the whole string; a string that does not expand and a remainder
    each have an error of their own. -/
theorem Bucket.packed_form_two_way (size : Nat) :
    (∀ bucket : Bucket size, bucket ≠ [] → ∃ p, Bucket.pack bucket = .ok p ∧
      p.uncompressedLength = bucket.length * wireSize size ∧
      p.unpack size =
        (if maxLength < bucket.length * wireSize size then .error .oversizedBuffer
         else .ok (bucket.map Block.canonical)) ∧
      (bucket.length * wireSize size ≤ maxLength →
        (p.unpack size = .ok bucket ↔
          ∀ b ∈ bucket, b.header.kind ≠ .unknown 0 ∧ b.header.kind ≠ .unknown 1))) ∧
    (∃ p, Bucket.pack ([] : Bucket size) = .ok p ∧
      p.unpack size = .error (.decompression 0)) ∧
    ∀ p : PackedBucket, p.uncompressedLength ≤ maxLength →
      ((∃ bucket, p.unpack size = .ok bucket) ↔
        ∃ x, p.decompress = .ok x ∧ wireSize size ∣ x.length) ∧
      (∀ bucket x, p.unpack size = .ok bucket → p.decompress = .ok x →
        bucket.length = x.length / wireSize size ∧ 1 ≤ bucket.length ∧
        bucket.flatMap Block.encode = x) ∧
      (∀ err, p.decompress = .error err →
        err = .decompression p.uncompressedLength ∧ p.unpack size = .error err) ∧
      ∀ x, p.decompress = .ok x → ¬wireSize size ∣ x.length →
        ∃ next, p.unpack size = .error (.invalidSize next x.length) ∧
          IsLeast {m | wireSize size ∣ m ∧ x.length < m} next := by
  refine ⟨fun bucket hne => ?_, ?_, fun p hp => ⟨PackedBucket.exists_unpack_iff, ?_, ?_, ?_⟩⟩
  · have hpack := Bucket.pack_eq_ok bucket
    refine ⟨_, hpack, rfl, ?_, fun hfit => PackedBucket.unpack_pack_eq_ok_iff hne hfit hpack⟩
    have hd := PackedBucket.decompress_pack hpack
    split
    · rename_i hlarge
      rw [if_pos hlarge] at hd
      exact PackedBucket.unpack_of_decompress_error hd
    · rename_i hfit
      exact PackedBucket.unpack_pack hne (Nat.not_lt.1 hfit) hpack
  · obtain ⟨p, hpack⟩ : ∃ p, Bucket.pack ([] : Bucket size) = .ok p := ⟨_, Bucket.pack_eq_ok []⟩
    have hd := PackedBucket.decompress_pack hpack
    rw [List.length_nil, Nat.zero_mul, if_neg (Nat.not_lt_zero _), if_neg (not_not_intro rfl)] at hd
    exact ⟨p, hpack, PackedBucket.unpack_of_decompress_error hd⟩
  · intro bucket x hbucket hx
    obtain ⟨hlength, hpos⟩ := PackedBucket.length_of_unpack hx hbucket
    exact ⟨hlength, hpos, PackedBucket.encode_of_unpack hx hbucket⟩
  · intro err herr
    exact ⟨eq_decompression_of_decompress hp herr, PackedBucket.unpack_of_decompress_error herr⟩
  · intro x hx hd
    exact ⟨_, (PackedBucket.unpack_of_decompress hx).trans (Bucket.decode_of_not_dvd hd),
      isLeast_multiple_above (wireSize_ne_zero size) x.length⟩

/-- A bucket of one block comes back, and three bytes that were packed on their own
    are one byte of payload short of a block of 34 bytes. -/
theorem Bucket.packed_form_two_way_one_block :
    let b : Block 1 := .new 7 .normal #v[0xAB]
    (∃ p, Bucket.pack [b] = .ok p ∧ p.unpack 1 = .ok [b]) ∧
    ∃ p, PackedBucket.compress [1, 2, 3] = .ok p ∧ p.unpack 1 = .error (.invalidSize 34 3) := by
  intro b
  constructor
  · obtain ⟨p, hp, -, -, hback⟩ := (packed_form_two_way 1).1 [b] (List.cons_ne_nil b [])
    refine ⟨p, hp, (hback (by decide)).2 ?_⟩
    simp [b, Block.new, Header.fresh]
  · have hpack := PackedBucket.compress_eq_ok [1, 2, 3]
    have hback := decompress_search [1, 2, 3] 3
    generalize (Frame.search [1, 2, 3]).encode = c at hpack hback
    have hfit : 3 ≤ maxLength := by decide
    rw [if_neg (Nat.not_lt.2 hfit), if_pos (by decide)] at hback
    obtain ⟨next, hnext, hleast⟩ :=
      ((packed_form_two_way 1).2.2 ⟨c, 3⟩ hfit).2.2.2 [1, 2, 3] hback (by decide)
    have hmultiple : IsLeast {m | wireSize 1 ∣ m ∧ [1, 2, 3].length < m} 34 :=
      isLeast_multiple_above (wireSize_ne_zero 1) 3
    rw [hleast.unique hmultiple] at hnext
    exact ⟨_, hpack, hnext⟩

end ObliviousStore
