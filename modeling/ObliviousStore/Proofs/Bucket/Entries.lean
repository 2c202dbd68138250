/-
  Buckets block by block — the blocks of a bucket in entries of their own, and
  beside it in one packed string (`entries_agree_with_packed`).

  A row of entries is read exactly if each of them has the length of a wire
  form, and the first that has not is reported (`decodeAll_of_first_wrong`).
  What is read from the entries of a bucket is what is unpacked after packing
  it, and the packed string is these entries one after the other.
-/
import Mathlib.Data.List.Forall2
import ObliviousStore.Proofs.Bucket.Unpacking

namespace ObliviousStore

variable {size : Nat}

/-! ## Reading entries -/

namespace Block

variable {x : Bytes} {encoded : List Bytes} {b : Block size} {bucket : Bucket size}
  {err : StoreError}

theorem decodeAll_cons_ok (h : decode size x = .ok b) :
    decodeAll size (x :: encoded) = (decodeAll size encoded).map (b :: ·) := by
  rw [decodeAll, List.mapM_cons, h, ← decodeAll]
  rfl

theorem decodeAll_cons_error (h : decode size x = .error err) :
    decodeAll size (x :: encoded) = .error err := by
  rw [decodeAll, List.mapM_cons, h]
  rfl

/-- The blocks that are read are those of the entries, in order. -/
theorem decodeAll_eq_ok_iff :
    decodeAll size encoded = .ok bucket ↔
      List.Forall₂ (fun x b => decode size x = .ok b) encoded bucket := by
  constructor
  · intro h
    induction encoded generalizing bucket with
    | nil =>
      obtain rfl : [] = bucket := Except.ok.inj h
      exact .nil
    | cons x encoded ih =>
      cases hx : decode size x with
      | error err =>
        rw [decodeAll_cons_error hx] at h
        exact absurd h (by simp)
      | ok b =>
        rw [decodeAll_cons_ok hx] at h
        cases hrest : decodeAll size encoded with
        | error err =>
          rw [hrest] at h
          exact absurd h (by simp [Except.map])
        | ok rest =>
          rw [hrest] at h
          obtain rfl : b :: rest = bucket := Except.ok.inj h
          exact .cons hx (ih hrest)
  · intro h
    induction h with
    | nil => rfl
    | cons hx _ ih =>
      rw [decodeAll_cons_ok hx, ih]
      rfl

theorem encodeAll_of_decodeAll (h : decodeAll size encoded = .ok bucket) :
    encodeAll bucket = encoded := by
  have hentries := decodeAll_eq_ok_iff.1 h
  clear h
  induction hentries with
  | nil => rfl
  | cons hx _ ih => rw [encodeAll, List.map_cons, ← encodeAll, ih, encode_of_decode hx]

/-- The entries before the first wrong one are read, and it is reported. -/
theorem decodeAll_of_first_wrong {before after : List Bytes}
    (hbefore : ∀ y ∈ before, y.length = wireSize size) (hx : x.length ≠ wireSize size) :
    decodeAll size (before ++ x :: after) = .error (.invalidSize (wireSize size) x.length) := by
  induction before with
  | nil => exact decodeAll_cons_error (decode_eq_error hx)
  | cons y before ih =>
    obtain ⟨hy, hrest⟩ := List.forall_mem_cons.1 hbefore
    rw [List.cons_append, decodeAll_cons_ok (decode_eq_ok hy), ih hrest]
    rfl

theorem exists_first_wrong (h : ∃ x ∈ encoded, x.length ≠ wireSize size) :
    ∃ before x after, encoded = before ++ x :: after ∧
      (∀ y ∈ before, y.length = wireSize size) ∧ x.length ≠ wireSize size := by
  induction encoded with
  | nil => simp at h
  | cons y encoded ih =>
    by_cases hy : y.length = wireSize size
    · obtain ⟨x, hx, hwrong⟩ := h
      have hmem : x ∈ encoded := (List.mem_cons.1 hx).resolve_left fun e => hwrong (e ▸ hy)
      obtain ⟨before, x, after, rfl, hbefore, hwrong⟩ := ih ⟨x, hmem, hwrong⟩
      exact ⟨y :: before, x, after, rfl, List.forall_mem_cons.2 ⟨hy, hbefore⟩, hwrong⟩
    · exact ⟨[], y, encoded, rfl, by simp, hy⟩

theorem exists_decodeAll_iff :
    (∃ bucket, decodeAll size encoded = .ok bucket) ↔ ∀ x ∈ encoded, x.length = wireSize size := by
  constructor
  · rintro ⟨bucket, h⟩ x hx
    by_contra hwrong
    obtain ⟨before, y, after, rfl, hbefore, hy⟩ := exists_first_wrong ⟨x, hx, hwrong⟩
    rw [decodeAll_of_first_wrong hbefore hy] at h
    exact absurd h (by simp)
  · intro h
    obtain ⟨bucket, hbucket, -⟩ := exists_decodeAll h
    exact ⟨bucket, hbucket⟩

end Block

/-! ## Entries and packed strings -/

variable {bucket : Bucket size} {p : PackedBucket}

theorem Bucket.flatten_encodeAll (bucket : Bucket size) :
    (Block.encodeAll bucket).flatten = Bucket.encode bucket := by
  rw [Block.encodeAll, Bucket.encode, List.flatMap_def]

/-- What was packed is unpacked as far as a buffer has room for it. -/
theorem PackedBucket.unpack_of_pack (hne : bucket ≠ []) (hp : Bucket.pack bucket = .ok p) :
    p.unpack size =
      if Bytes.maxLength < bucket.length * wireSize size then .error .oversizedBuffer
      else .ok (bucket.map Block.canonical) := by
  by_cases hlarge : Bytes.maxLength < bucket.length * wireSize size
  · have hd := decompress_pack hp
    rw [if_pos hlarge] at hd ⊢
    exact unpack_of_decompress_error hd
  · rw [if_neg hlarge]
    exact unpack_pack hne (Nat.not_lt.1 hlarge) hp

/-- **Entries and packed strings hold the same blocks.**  A row of entries is read exactly if
    each of them is as long as a wire form; then there is a block for each entry, in order,
    and writing the blocks gives the entries back.  Otherwise the first entry that is not is
    reported, with both lengths.  Whatever the types of the blocks of a bucket, what is read
    from its entries is what is unpacked after packing it, as long as a buffer has room for
    it; and what is compressed are the entries, one after the other. -/
theorem Bucket.entries_agree_with_packed (size : Nat) :
    (∀ encoded : List Bytes,
      ((∃ bucket, Block.decodeAll size encoded = .ok bucket) ↔
        ∀ x ∈ encoded, x.length = wireSize size) ∧
      (∀ bucket, Block.decodeAll size encoded = .ok bucket →
        bucket.length = encoded.length ∧
        List.Forall₂ (fun x b => Block.decode size x = .ok b) encoded bucket ∧
        Block.encodeAll bucket = encoded) ∧
      ((∃ x ∈ encoded, x.length ≠ wireSize size) →
        ∃ before x after, encoded = before ++ x :: after ∧
          (∀ y ∈ before, y.length = wireSize size) ∧ x.length ≠ wireSize size ∧
          Block.decodeAll size encoded = .error (.invalidSize (wireSize size) x.length))) ∧
    ∀ bucket : Bucket size,
      (Bucket.encodeInto #[] bucket).toList = (Block.encodeAll bucket).flatten ∧
      ∃ blocks p, Block.decodeAll size (Block.encodeAll bucket) = .ok blocks ∧
        Bucket.pack bucket = .ok p ∧
        PackedBucket.compress (Block.encodeAll bucket).flatten = .ok p ∧
        (bucket ≠ [] →
          p.unpack size =
            if Bytes.maxLength < bucket.length * wireSize size then .error .oversizedBuffer
            else .ok blocks) := by
  refine ⟨fun encoded => ⟨Block.exists_decodeAll_iff, ?_, ?_⟩, fun bucket => ⟨?_, ?_⟩⟩
  · intro bucket h
    have hentries := Block.decodeAll_eq_ok_iff.1 h
    exact ⟨hentries.length_eq.symm, hentries, Block.encodeAll_of_decodeAll h⟩
  · intro h
    obtain ⟨before, x, after, rfl, hbefore, hx⟩ := Block.exists_first_wrong h
    exact ⟨before, x, after, rfl, hbefore, hx, Block.decodeAll_of_first_wrong hbefore hx⟩
  · rw [toList_encodeInto, List.nil_append, flatten_encodeAll]
  · have hpack := Bucket.pack_eq_ok bucket
    refine ⟨_, _, Block.decodeAll_encodeAll bucket, hpack, ?_,
      fun hne => PackedBucket.unpack_of_pack hne hpack⟩
    rw [flatten_encodeAll, ← pack_eq_compress, hpack]

/-- Two entries of which the second is a byte short; and a block of a type that does not come
    back as it was, from its entry and unpacked alike. -/
theorem Bucket.entries_agree_with_packed_unknown :
    let whole : Bytes := List.replicate 34 0
    let short : Bytes := List.replicate 33 0
    let b : Block 1 := .new 7 (.unknown 0) #v[0xAB]
    let back : Block 1 := .new 7 .normal #v[0xAB]
    (∃ bucket : Bucket 1, Block.decodeAll 1 [whole, whole] = .ok bucket ∧ bucket.length = 2 ∧
      Block.encodeAll bucket = [whole, whole]) ∧
    (∃ x ∈ [whole, short], x.length ≠ wireSize 1) ∧
    Block.decodeAll 1 [whole, short] = .error (.invalidSize 34 33) ∧
    [b] ≠ [] ∧ ∃ p, Block.decodeAll 1 (Block.encodeAll [b]) = .ok [back] ∧
      Bucket.pack [b] = .ok p ∧ p.unpack 1 = .ok [back] := by
  intro whole short b back
  obtain ⟨hentries, hpacked⟩ := entries_agree_with_packed 1
  have hwhole : ∀ x ∈ [whole, whole], x.length = wireSize 1 := by decide
  have hshort : ∃ x ∈ [whole, short], x.length ≠ wireSize 1 := ⟨short, by simp, by decide⟩
  obtain ⟨bucket, hbucket⟩ := (hentries [whole, whole]).1.2 hwhole
  obtain ⟨hlength, -, hencode⟩ := (hentries [whole, whole]).2.1 bucket hbucket
  obtain ⟨before, x, after, hsplit, -, hx, herror⟩ := (hentries [whole, short]).2.2 hshort
  have hmem : x ∈ [whole, short] := by
    rw [hsplit]
    exact List.mem_append_right before (List.mem_cons_self ..)
  obtain rfl : x = short := by
    rcases List.mem_cons.1 hmem with rfl | hmem
    · exact absurd (hwhole whole (by simp)) hx
    · exact List.mem_singleton.1 hmem
  obtain ⟨-, blocks, p, hblocks, hpack, -, hunpack⟩ := hpacked [b]
  obtain rfl : [back] = blocks := Except.ok.inj (Block.decodeAll_encodeAll [b] ▸ hblocks)
  have hne : [b] ≠ [] := List.cons_ne_nil b []
  refine ⟨⟨bucket, hbucket, hlength, hencode⟩, hshort, herror, hne, p, hblocks, hpack, ?_⟩
  rw [hunpack hne, if_neg (by decide)]

end ObliviousStore
